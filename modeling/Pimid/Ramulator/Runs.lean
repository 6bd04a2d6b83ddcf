import Pimid.Ramulator.Steps

/-!
# Runs of the DRAM controller

A property that holds at the start, and that every step of a tick and everything from outside keeps,
holds after every run. What is sent names addresses of a kind, and then the buffers hold no others.
-/

namespace Pimid.Ramulator

namespace Controller

open Ramulator.Config

variable {D : Type} {c : Config D} {s : Controller D} {A : AddrVec → Prop}

/-! ## A converted request -/

theorem converted_same (r : Request) (cmd : Nat) :
    (s.converted c r cmd).addrVec = r.addrVec ∧ (s.converted c r cmd).sourceId = r.sourceId := by
  unfold converted
  split <;> exact ⟨rfl, rfl⟩

theorem host_converted (r : Request) (cmd : Nat) : host (s.converted c r cmd) = host r := by
  unfold host
  rw [(converted_same r cmd).2]

theorem pimidLs_converted (r : Request) (cmd : Nat) : c.pimidLs (s.converted c r cmd) = c.pimidLs r := by
  unfold pimidLs
  rw [host_converted]

/-! ## The buffers -/

/-- The addresses of the buffered requests are `A`. -/
def BuffersAre (A : AddrVec → Prop) (s : Controller D) : Prop := ∀ b, ∀ r ∈ s.buffers b, A r.addrVec

/-- The buffered requests name nodes of the organisation. -/
def BuffersInRange (c : Config D) (s : Controller D) : Prop := BuffersAre c.InRange s

theorem BuffersAre.prioritySends (h : BuffersAre A s) {xs : List (AddrVec × Nat)} (hxs : ∀ x ∈ xs, A x.1) :
    BuffersAre A (s.prioritySends c xs) := by
  obtain ⟨l, hl, hlok⟩ := prioritySends_eq (c := c) (s := s) xs
  rw [hl]
  intro b r hr
  by_cases hb : b = .priority
  · subst hb
    rw [setBuffer_self] at hr
    rcases List.mem_append.mp hr with hr | hr
    · exact h _ r hr
    · obtain ⟨-, x, hx, hrx⟩ := hlok r hr
      rw [hrx]
      exact hxs x hx
  · rw [setBuffer_of_ne hb] at hr
    exact h b r hr

theorem BuffersAre.enqueue (h : BuffersAre A s) {b : Buffer} {r : Request} (hr : A r.addrVec) :
    BuffersAre A (s.enqueue c b r).2 := by
  unfold Controller.enqueue
  split
  · intro b' x hx
    by_cases hb' : b' = b
    · subst hb'
      change x ∈ (s.setBuffer _ _).buffers _ at hx
      rw [setBuffer_self] at hx
      rcases List.mem_append.mp hx with hx | hx
      · exact h _ x hx
      · rw [List.mem_singleton.mp hx]
        exact hr
    · change x ∈ (s.setBuffer _ _).buffers _ at hx
      rw [setBuffer_of_ne hb'] at hx
      exact h b' x hx
  · exact h

theorem BuffersAre.issue (h : BuffersAre A s) {buses : Bool} {b : Buffer} {i : Nat} {r : Request} {cmd : Nat}
    (hr : A r.addrVec) : BuffersAre A (s.pimidIssue c buses b i r cmd) := by
  have ht := pimidIssue_issued (c := c) (s := s) buses b i r cmd
  intro b' x hx
  by_cases hb : b' = .active
  · subst hb
    rcases ht.active x hx with hx | rfl
    · exact h _ x hx
    · rw [(converted_same r cmd).1]
      exact hr
  · exact h b' x ((ht.stay b' hb).subset hx)

theorem PriorityOk.issue (h : PriorityOk s) {buses : Bool} {b : Buffer} {i : Nat} {r : Request} {cmd : Nat} :
    PriorityOk (s.pimidIssue c buses b i r cmd) := fun x hx =>
  h x (((pimidIssue_issued buses b i r cmd).stay .priority (by decide)).subset hx)

theorem PriorityOk.enqueue (h : PriorityOk s) {b : Buffer} {r : Request} (hb : b ≠ .priority) :
    PriorityOk (s.enqueue c b r).2 := by
  unfold Controller.enqueue
  split
  · intro x hx
    change x ∈ (s.setBuffer _ _).buffers _ at hx
    rw [setBuffer_of_ne (Ne.symm hb)] at hx
    exact h x hx
  · exact h

theorem enqueue_eq (b : Buffer) (r : Request) : ∃ l, (s.enqueue c b r).2 = { s with buffers := l } := by
  unfold enqueue
  split
  · exact ⟨_, rfl⟩
  · exact ⟨s.buffers, rfl⟩

/-! ## What comes in -/

theorem serveCompletedReads_eq : ∃ pending called, s.serveCompletedReads = { s with pending, called } := by
  unfold serveCompletedReads
  split
  · exact ⟨s.pending, s.called, rfl⟩
  · split
    · exact ⟨_, _, rfl⟩
    · exact ⟨s.pending, s.called, rfl⟩

/-- What is sent is `A`. -/
def Op.All (A : AddrVec → Prop) : Op D → Prop
  | .send r => A r.addrVec
  | .prioritySend x => A x.1
  | .tick input => input.All fun x => A x.1
  | .dram _ => True

/-- What is sent names nodes of the organisation. -/
def Op.InRange (c : Config D) : Op D → Prop
  | .send r => c.InRange r.addrVec
  | .prioritySend x => c.InRange x.1
  | .tick input => input.All fun x => c.InRange x.1
  | .dram _ => True

theorem Op.InRange.all {op : Op D} (h : op.InRange c) : op.All c.InRange := by
  cases op <;> exact h

theorem Op.all_true (op : Op D) : op.All fun _ => True := by
  cases op with
  | send r => trivial
  | prioritySend x => trivial
  | tick input => exact ⟨fun _ _ => trivial, fun _ _ _ _ => trivial⟩
  | dram d => trivial

/-- A tick up to the commands. -/
def begun (c : Config D) (s : Controller D) (input : TickInput) : Controller D :=
  (({ s with clk := s.clk + 1 } : Controller D).serveCompletedReads.prioritySends c input.refresh).pdTick c

/-- A request that comes in is answered by a queued write, waits in the read or the write buffer, or is refused. -/
theorem apply_send (r : Request) : (∃ q, s.apply c (.send r) = s.pushRead q true (s.clk + 1)) ∨
    (∃ b q, b ≠ .priority ∧ q.addrVec = r.addrVec ∧ s.apply c (.send r) = (s.enqueue c b q).2) ∨
    s.apply c (.send r) = s := by
  unfold Controller.apply send
  dsimp only
  split
  · next out hout =>
    split_ifs at hout with hf hr hw
    · obtain rfl := Option.some.inj hout
      exact .inl ⟨_, rfl⟩
    · obtain rfl := Option.some.inj hout
      exact .inr (.inl ⟨.read, { r with arrive := s.clk, finalCommand := _ }, nofun, rfl, rfl⟩)
    · obtain rfl := Option.some.inj hout
      exact .inr (.inl ⟨.write, { r with arrive := s.clk, finalCommand := _ }, nofun, rfl, rfl⟩)
  · exact .inr (.inr rfl)

/-! ## A property of every run -/

/-- What every step of a run keeps, where what is sent is `A`. -/
structure RunKept (c : Config D) (A : AddrVec → Prop) (P : Controller D → Prop) : Prop
    extends Kept c (fun x => A x.1) P where
  enqueue : ∀ s b r, P s → b ≠ .priority → A r.addrVec → P (s.enqueue c b r).2
  forward : ∀ s r, P s → P (s.pushRead r true (s.clk + 1))
  begun : ∀ s input, P s → input.All (fun x => A x.1) → P (s.begun c input)
  dram : ∀ s d, P s → P { s with dram := d }

variable {P : Controller D → Prop}

theorem RunKept.tick (h : RunKept c A P) (hs : P s) {input : TickInput} (hin : input.All fun x => A x.1) :
    P (s.tick c input) := by
  have hb := h.begun s input hs hin
  unfold Controller.tick
  by_cases hp : c.bankParallel = true
  · rw [if_pos hp]
    exact h.bankParallel hp hin hb
  · rw [if_neg hp]
    exact h.plainTick (Bool.eq_false_iff.mpr hp) hin hb

theorem RunKept.apply (h : RunKept c A P) (hs : P s) {op : Op D} (hop : op.All A) : P (s.apply c op) := by
  cases op with
  | send r =>
    rcases apply_send (c := c) (s := s) r with ⟨q, hq⟩ | ⟨b, q, hb, ha, hq⟩ | hq <;> rw [hq]
    · exact h.forward s q hs
    · refine h.enqueue s b q hs hb ?_
      rw [ha]
      exact hop
    · exact hs
  | prioritySend x =>
    show P (s.prioritySends c [x])
    refine h.sends s [x] (fun y hy => ?_) hs
    rw [List.mem_singleton.mp hy]
    exact hop
  | tick input => exact h.tick hs hop
  | dram d => exact h.dram s d hs

/-- **A property that every step keeps holds after every run.** -/
theorem RunKept.run (h : RunKept c A P) {d : D} (hd : P { dram := d }) {ops : List (Op D)} (hops : ∀ op ∈ ops, op.All A) :
    P (run c d ops) := by
  unfold Controller.run
  suffices hall : ∀ s, P s → P (ops.foldl (Controller.apply c) s) from hall _ hd
  induction ops with
  | nil => exact fun s hs => hs
  | cons op ops ih =>
    intro s hs
    exact ih (fun x hx => hops x (List.mem_cons_of_mem _ hx)) _ (h.apply hs (hops op (List.mem_cons_self ..)))

end Controller

end Pimid.Ramulator
