import Pimid.Garnet.BusArbiter

/-!
# Taking turns on the bus

Both pointers go past the position that won. While a port has a flit to send the bus passes it over for each other
port at most once. The same holds of the channels of a port where the port's pointer moves, that is where the up and
down classes are on; where they are off it stays at the first channel, and the first with a flit wins.
-/

namespace Pimid.Garnet.BusArbiter

variable {b : Bus} {s : Arbiter} {w : Wake}

/-! ## One wakeup -/

/-- The pointers stay in range. -/
structure InTurn (b : Bus) (s : Arbiter) : Prop where
  bus : s.bus_rr = 0 ∨ s.bus_rr < b.num_inports
  ports : ∀ i, s.round_robin_invc i = 0 ∨ s.round_robin_invc i < b.num_vcs

theorem inTurn_init (credits : ℕ → ℕ → ℤ) : InTurn b (init credits) := ⟨.inl rfl, fun _ => .inl rfl⟩

theorem pointer_lt {p n x : ℕ} (hp : p = 0 ∨ p < n) (hx : x < n) : p < n := by omega

theorem wants_isSome_of_request {now i v o : ℕ} (h : portRequest b s now i = some (v, o)) : wants b s now i v = some o := by
  obtain ⟨u, -, hu⟩ := Option.bind_eq_some_iff.mp h
  obtain ⟨o', ho', heq⟩ := Option.map_eq_some_iff.mp hu
  obtain ⟨rfl, rfl⟩ := Prod.mk.inj heq
  exact ho'

/-- **What a port asks for**: a channel that may send, none that may stands before it. -/
theorem portRequest_some (hs : InTurn b s) {now i v o : ℕ} (h : portRequest b s now i = some (v, o)) :
    v < b.num_vcs ∧ ∀ u < b.num_vcs, (wants b s now i u).isSome →
      rel b.num_vcs (s.round_robin_invc i) v ≤ rel b.num_vcs (s.round_robin_invc i) u := by
  obtain ⟨u, hscan, hu⟩ := Option.bind_eq_some_iff.mp h
  obtain ⟨o', -, heq⟩ := Option.map_eq_some_iff.mp hu
  obtain ⟨rfl, rfl⟩ := Prod.mk.inj heq
  have hpos : 0 < b.num_vcs := by
    rcases Nat.eq_zero_or_pos b.num_vcs with h0 | hpos
    · rw [h0] at hscan
      cases hscan
    · exact hpos
  have hp := pointer_lt (hs.ports i) hpos
  obtain ⟨hlt, -, hfirst⟩ := scanFrom_some hp hscan
  exact ⟨hlt, hfirst⟩

theorem portRequest_isSome (hs : InTurn b s) {now i : ℕ} :
    (portRequest b s now i).isSome ↔ ∃ v < b.num_vcs, (wants b s now i v).isSome := by
  constructor
  · intro h
    obtain ⟨⟨v, o⟩, hv⟩ := Option.isSome_iff_exists.mp h
    exact ⟨v, (portRequest_some hs hv).1, by rw [wants_isSome_of_request hv]; rfl⟩
  · rintro ⟨v, hv, hw⟩
    have hp := pointer_lt (hs.ports i) hv
    obtain ⟨x, hx⟩ := @scanFrom_isSome _ _ (fun invc => (wants b s now i invc).isSome) hp v hv hw
    have hasks : (wants b s now i x).isSome = true := (scanFrom_some hp hx).2.1
    rw [portRequest, hx, Option.bind_some, Option.isSome_map]
    exact hasks

theorem grant_eq {now i v o : ℕ} (h : wants b s now i v = some o) : ∃ g, (grant b s now i v o).2 = [g] ∧
    g.inport = i ∧ g.invc = v ∧ g.outport = o ∧
    (((s.input i v).output_vc = none ∧ is_vc_idle (s.output o g.outvc) now = true) ∨
      ((s.input i v).output_vc = some g.outvc ∧ 0 < (s.output o g.outvc).credit_count)) ∧
    (grant b s now i v o).1.bus_rr = (i + 1) % b.num_inports ∧
    (grant b s now i v o).1.round_robin_invc = if b.updown then
      Function.update s.round_robin_invc i ((v + 1) % b.num_vcs) else s.round_robin_invc := by
  unfold wants at h
  by_cases hneed : need_stage (s.input i v) now = true
  · rw [if_pos hneed] at h
    obtain ⟨-, hallowed⟩ := Option.filter_eq_some_iff.mp h
    rw [send_allowed, Bool.and_eq_true] at hallowed
    unfold grant
    dsimp only
    cases hbuf : (s.input i v).inputBuffer with
    | nil =>
      rw [need_stage, hbuf] at hneed
      cases hneed
    | cons x rest =>
      refine ⟨_, rfl, rfl, rfl, rfl, ?_, rfl, rfl⟩
      cases hout : (s.input i v).output_vc with
      | some outvc =>
        rw [hout] at hallowed
        exact .inr ⟨rfl, of_decide_eq_true hallowed.1⟩
      | none =>
        rw [hout] at hallowed
        refine .inl ⟨rfl, ?_⟩
        obtain ⟨vc, hvc, hidle⟩ := List.any_eq_true.mp hallowed.1
        obtain ⟨found, hfound⟩ := Option.isSome_iff_exists.mp
          ((List.find?_isSome (p := fun vc => is_vc_idle (s.output o vc) now)).mpr ⟨vc, hvc, hidle⟩)
        have := List.find?_some hfound
        rw [Option.getD_none, vc_allocate, hfound]
        exact this
  · rw [if_neg hneed] at h
    cases h

/-- **What a wakeup can do**: nothing, if no port has a flit to send, or one port's flit crosses, and no port that has
one stands before it. -/
theorem wakeup_cases (hs : InTurn b s) (w : Wake) :
    ((wakeup b s w).2 = [] ∧ (wakeup b s w).1 = ready b w s ∧ ∀ j < b.num_inports, ¬ PortGrantable b s w j) ∨
    ∃ g, (wakeup b s w).2 = [g] ∧ g.inport < b.num_inports ∧ Grantable b s w g.inport g.invc ∧
      (∀ j < b.num_inports, PortGrantable b s w j → rel b.num_inports s.bus_rr g.inport ≤ rel b.num_inports s.bus_rr j) ∧
      (∀ u, Grantable b s w g.inport u →
        rel b.num_vcs (s.round_robin_invc g.inport) g.invc ≤ rel b.num_vcs (s.round_robin_invc g.inport) u) ∧
      ((((ready b w s).input g.inport g.invc).output_vc = none ∧
          is_vc_idle ((ready b w s).output g.outport g.outvc) w.now = true) ∨
        (((ready b w s).input g.inport g.invc).output_vc = some g.outvc ∧
          0 < ((ready b w s).output g.outport g.outvc).credit_count)) ∧
      (wakeup b s w).1.bus_rr = (g.inport + 1) % b.num_inports ∧
      (wakeup b s w).1.round_robin_invc = if b.updown then
        Function.update s.round_robin_invc g.inport ((g.invc + 1) % b.num_vcs) else s.round_robin_invc := by
  have hr : InTurn b (ready b w s) := ⟨hs.bus, hs.ports⟩
  have hgrantable : ∀ j, PortGrantable b s w j ↔ (portRequest b (ready b w s) w.now j).isSome := by
    intro j
    rw [portRequest_isSome hr]
    exact Iff.rfl
  unfold wakeup arbitrate_bus
  rcases Nat.eq_zero_or_pos b.num_inports with h0 | hpos
  · refine .inl ⟨?_, ?_, fun j hj => absurd hj (by omega)⟩
    · rw [h0]
      rfl
    · rw [h0]
      rfl
  have hp : s.bus_rr < b.num_inports := pointer_lt hs.bus hpos
  have hrr : (ready b w s).bus_rr % b.num_inports = s.bus_rr := Nat.mod_eq_of_lt hp
  rw [hrr]
  cases hscan : scanFrom b.num_inports (fun inport => (portRequest b (ready b w s) w.now inport).isSome)
      b.num_inports s.bus_rr with
  | none =>
    refine .inl ⟨rfl, rfl, fun j hj hg => ?_⟩
    obtain ⟨x, hx⟩ := @scanFrom_isSome _ _ (fun inport => (portRequest b (ready b w s) w.now inport).isSome) hp j hj
      ((hgrantable j).mp hg)
    rw [hscan] at hx
    cases hx
  | some i =>
    obtain ⟨hi, hasks, hfirst⟩ := scanFrom_some hp hscan
    obtain ⟨⟨v, o⟩, hreq⟩ := Option.isSome_iff_exists.mp hasks
    have hw := wants_isSome_of_request hreq
    obtain ⟨hv, hfirstVc⟩ := portRequest_some hr hreq
    dsimp only
    rw [hreq]
    dsimp only
    obtain ⟨g, hg, rfl, rfl, rfl, hserved, hbus, hvcs⟩ := grant_eq hw
    refine .inr ⟨g, hg, hi, ⟨hv, by rw [hw]; rfl⟩, fun j hj hgj => hfirst j hj ((hgrantable j).mp hgj),
      fun u hu => hfirstVc u hu.1 hu.2, hserved, hbus, hvcs⟩

theorem inTurn_wakeup (hs : InTurn b s) (w : Wake) : InTurn b (wakeup b s w).1 := by
  rcases wakeup_cases hs w with ⟨-, h, -⟩ | ⟨g, -, hi, hv, -, -, -, hbus, hvcs⟩
  · rw [h]
    exact ⟨hs.bus, hs.ports⟩
  · refine ⟨?_, fun i => ?_⟩
    · rw [hbus]
      exact .inr (Nat.mod_lt _ (by omega))
    · rw [hvcs]
      cases b.updown with
      | false => exact hs.ports i
      | true =>
        rw [if_pos rfl, Function.update_apply]
        by_cases h : i = g.inport
        · rw [if_pos h]
          exact .inr (Nat.mod_lt _ (Nat.lt_of_le_of_lt (Nat.zero_le _) hv.1))
        · rw [if_neg h]
          exact hs.ports i

theorem inTurn_after (hs : InTurn b s) (ws : List Wake) : InTurn b (after b s ws) := by
  induction ws generalizing s with
  | nil => exact hs
  | cons w ws ih => exact ih (inTurn_wakeup hs w)

/-! ## Runs -/

/-- What a wakeup grants: one flit at most, of a port that exists, to a channel that is free if its packet has none yet
and else has a credit; and one at least, if a port has a flit to send. -/
structure OneGrant (b : Bus) (s : Arbiter) (w : Wake) (gs : List Grant) : Prop where
  one : gs.length ≤ 1
  served : ∀ g ∈ gs, Grantable b s w g.inport g.invc ∧
    ((((ready b w s).input g.inport g.invc).output_vc = none ∧
        is_vc_idle ((ready b w s).output g.outport g.outvc) w.now = true) ∨
      (((ready b w s).input g.inport g.invc).output_vc = some g.outvc ∧
        0 < ((ready b w s).output g.outport g.outvc).credit_count))
  some : (∃ i < b.num_inports, PortGrantable b s w i) → gs ≠ []

theorem oneGrant_wakeup (hs : InTurn b s) (w : Wake) : OneGrant b s w (wakeup b s w).2 := by
  rcases wakeup_cases hs w with ⟨hnil, -, hnone⟩ | ⟨g, hg, -, hgrantable, -, -, hserved, -, -⟩
  · rw [hnil]
    exact ⟨Nat.zero_le 1, fun _ h => absurd h List.not_mem_nil, fun ⟨i, hi, hport⟩ => absurd hport (hnone i hi)⟩
  · rw [hg]
    exact ⟨Nat.le_refl 1, List.forall_mem_singleton.mpr ⟨hgrantable, hserved⟩, fun _ => List.cons_ne_nil _ _⟩

/-- A port waits in a wakeup: it has a flit to send and is not granted. -/
def PortWaits (b : Bus) (i : ℕ) (s : Arbiter) (w : Wake) (gs : List Grant) : Prop :=
  PortGrantable b s w i ∧ ∀ g ∈ gs, g.inport ≠ i

/-- A channel of a port does. -/
def VcWaits (b : Bus) (i v : ℕ) (s : Arbiter) (w : Wake) (gs : List Grant) : Prop :=
  Grantable b s w i v ∧ ∀ g ∈ gs, ¬ (g.inport = i ∧ g.invc = v)

/-- The port nearest the bus's pointer that has a flit to send has one channel with one. -/
def Lone (b : Bus) (s : Arbiter) (w : Wake) : Prop :=
  ∀ i < b.num_inports, PortGrantable b s w i →
    (∀ j < b.num_inports, PortGrantable b s w j → rel b.num_inports s.bus_rr i ≤ rel b.num_inports s.bus_rr j) →
    ∀ v u, Grantable b s w i v → Grantable b s w i u → v = u

theorem during_append {P : Arbiter → Wake → List Grant → Prop} {s : Arbiter} {ws ws' : List Wake}
    (h : During b P s (ws ++ ws')) : During b P (after b s ws) ws' := by
  induction ws generalizing s with
  | nil => exact h
  | cons w ws ih => exact ih h.2

theorem during_imp {P Q : Arbiter → Wake → List Grant → Prop} (h : ∀ s w gs, P s w gs → Q s w gs) {s : Arbiter}
    {ws : List Wake} (hP : During b P s ws) : During b Q s ws := by
  induction ws generalizing s with
  | nil => trivial
  | cons w ws ih => exact ⟨h _ _ _ hP.1, ih hP.2⟩

theorem oneGrant_during (hs : InTurn b s) (ws : List Wake) : During b (OneGrant b) s ws := by
  induction ws generalizing s with
  | nil => trivial
  | cons w ws ih => exact ⟨oneGrant_wakeup hs w, ih (inTurn_wakeup hs w)⟩

theorem passOver_ports (hs : InTurn b s) {i : ℕ} (hi : i < b.num_inports) {ws : List Wake}
    (h : During b (PortWaits b i) s ws) : PassOver b.num_inports i s.bus_rr ((granted b s ws).map Grant.inport) := by
  induction ws generalizing s with
  | nil => trivial
  | cons w ws ih =>
    obtain ⟨⟨hport, hnot⟩, hrest⟩ := h
    have hih := ih (inTurn_wakeup hs w) hrest
    rcases wakeup_cases hs w with ⟨-, -, hnone⟩ | ⟨g, hg, hgi, -, hfirst, -, -, hbus, -⟩
    · exact absurd hport (hnone i hi)
    · rw [granted, hg]
      rw [hg] at hnot
      refine ⟨⟨hgi, hnot g (List.mem_singleton_self g), hfirst i hi hport⟩, ?_⟩
      rw [← hbus]
      exact hih

/-- While a channel waits, the channels granted of its port pass it over, if the port's pointer moves. -/
theorem passOver_vcs (hs : InTurn b s) (hup : b.updown = true) {i v : ℕ} {ws : List Wake}
    (h : During b (VcWaits b i v) s ws) : PassOver b.num_vcs v (s.round_robin_invc i)
      (((granted b s ws).filter fun g => g.inport = i).map Grant.invc) := by
  induction ws generalizing s with
  | nil => trivial
  | cons w ws ih =>
    obtain ⟨⟨hvc, hnot⟩, hrest⟩ := h
    have hih := ih (inTurn_wakeup hs w) hrest
    rcases wakeup_cases hs w with ⟨hnil, hready, -⟩ | ⟨g, hg, -, hgv, -, hfirst, -, -, hvcs⟩
    · rw [granted, hnil]
      have hptr : (wakeup b s w).1.round_robin_invc i = s.round_robin_invc i := by rw [hready]; rfl
      rw [hptr] at hih
      exact hih
    · rw [granted, hg, List.filter_append]
      rw [hg] at hnot
      rw [hvcs, hup, if_pos rfl, Function.update_apply] at hih
      by_cases hport : g.inport = i
      · subst hport
        rw [if_pos rfl] at hih
        rw [List.filter_cons_of_pos (p := fun x : Grant => decide (x.inport = g.inport)) (decide_eq_true rfl)]
        exact ⟨⟨hgv.1, fun hv => hnot g (List.mem_singleton_self g) ⟨rfl, hv⟩, hfirst v hvc⟩, hih⟩
      · rw [if_neg fun h' => hport h'.symm] at hih
        rw [List.filter_cons_of_neg (p := fun x : Grant => decide (x.inport = i)) fun h' => hport (of_decide_eq_true h')]
        exact hih

/-- While a channel waits, no channel of its port is granted, if ports that are granted have one with a flit. -/
theorem granted_lone (hs : InTurn b s) {i v : ℕ} {ws : List Wake} (hlone : During b (fun s w _ => Lone b s w) s ws)
    (h : During b (VcWaits b i v) s ws) : (granted b s ws).filter (fun g => g.inport = i) = [] := by
  induction ws generalizing s with
  | nil => rfl
  | cons w ws ih =>
    obtain ⟨⟨hvc, hnot⟩, hrest⟩ := h
    have hih := ih (inTurn_wakeup hs w) hlone.2 hrest
    rcases wakeup_cases hs w with ⟨hnil, -, -⟩ | ⟨g, hg, hgi, hgv, hfirst, -, -, -, -⟩
    · rw [granted, hnil]
      exact hih
    · rw [granted, hg, List.filter_append, hih, List.append_nil]
      rw [hg] at hnot
      refine List.filter_cons_of_neg fun hport => ?_
      obtain rfl := of_decide_eq_true hport
      have hsame := hlone.1 g.inport hgi ⟨_, hgv⟩ hfirst v g.invc hvc hgv
      exact hnot g (List.mem_singleton_self g) ⟨rfl, hsame.symm⟩

/-- **The bus takes turns**: a wakeup grants one flit to a channel that can take it, if there is one to grant; a port
with a flit to send in every wakeup is passed over by another once at most; and so is a channel by another of its port,
in a run where the up and down classes are on or the ports granted have one channel with a flit. -/
theorem run_fair (b : Bus) (credits : ℕ → ℕ → ℤ) (pre seg : List Wake) :
    During b (OneGrant b) (init credits) (pre ++ seg) ∧
    (∀ i < b.num_inports, During b (PortWaits b i) (after b (init credits) pre) seg →
      ∀ j, (granted b (after b (init credits) pre) seg).countP (fun g => g.inport = j) ≤ 1) ∧
    (During b (fun s w _ => b.updown = true ∨ Lone b s w) (init credits) (pre ++ seg) →
      ∀ i v, During b (VcWaits b i v) (after b (init credits) pre) seg →
        ∀ u, (granted b (after b (init credits) pre) seg).countP (fun g => g.inport = i ∧ g.invc = u) ≤ 1) := by
  have hs : InTurn b (after b (init credits) pre) := inTurn_after (inTurn_init credits) pre
  refine ⟨oneGrant_during (inTurn_init credits) _, fun i hi hwaits j => ?_, fun hcond i v hwaits u => ?_⟩
  · have hlt := pointer_lt hs.bus hi
    have hnodup := (PassOver.nodup hlt hi (passOver_ports hs hi hwaits)).1
    have hcount := List.nodup_iff_count_le_one.mp hnodup j
    rw [List.count_eq_countP, List.countP_map] at hcount
    refine Nat.le_trans (Nat.le_of_eq (List.countP_congr fun g _ => ?_)) hcount
    simp
  · have hfilter : (granted b (after b (init credits) pre) seg).countP (fun g => g.inport = i ∧ g.invc = u) =
        (((granted b (after b (init credits) pre) seg).filter fun g => g.inport = i).map Grant.invc).count u := by
      rw [List.count_eq_countP, List.countP_map, List.countP_filter]
      refine List.countP_congr fun g _ => ?_
      simp [and_comm]
    rw [hfilter]
    cases hup : b.updown with
    | true =>
      cases seg with
      | nil => exact Nat.zero_le 1
      | cons w seg =>
        have hv : v < b.num_vcs := hwaits.1.1.1
        have hnodup := (PassOver.nodup (pointer_lt (hs.ports i) hv) hv (passOver_vcs hs hup hwaits)).1
        exact List.nodup_iff_count_le_one.mp hnodup u
    | false =>
      have hlone : During b (fun s w _ => Lone b s w) (after b (init credits) pre) seg := by
        refine during_imp (fun s w gs h => h.resolve_left ?_) (during_append hcond)
        rw [hup]
        exact Bool.false_ne_true
      rw [granted_lone hs hlone hwaits]
      exact Nat.zero_le 1

/-! ## A channel left waiting -/

instance (b : Bus) (s : Arbiter) (w : Wake) (i v : ℕ) : Decidable (Grantable b s w i v) :=
  inferInstanceAs (Decidable (_ ∧ _))

instance (b : Bus) (i v : ℕ) (s : Arbiter) (w : Wake) (gs : List Grant) : Decidable (VcWaits b i v s w gs) :=
  inferInstanceAs (Decidable (_ ∧ _))

instance During.decidable (b : Bus) (P : Arbiter → Wake → List Grant → Prop) [∀ s w gs, Decidable (P s w gs)] :
    ∀ s ws, Decidable (During b P s ws)
  | _, [] => .isTrue trivial
  | s, w :: ws =>
    haveI := During.decidable b P (wakeup b s w).1 ws
    inferInstanceAs (Decidable (_ ∧ _))

/-- A bus of two ports with four channels each and one stage, with the classes or without. -/
def twoPorts (updown : Bool) : Bus where
  num_inports := 2
  virt_nets := 1
  vc_per_vnet := 4
  consumerVcs _ := 4
  updown := updown
  isVNetOrdered _ := false
  inDirn _ := .Local
  outDirn _ := .Local
  pipe_stages := 1
  period := 1

/-- A wakeup at which a flit comes in at both ports. -/
def bothPorts (now : ℕ) (f g : Flit) : Wake where
  now := now
  flit inport := if inport = 0 then some f else some g
  credit _ := none

def fourCredits : ℕ → ℕ → ℤ := fun _ _ => 4

/-- Port 1 gets a packet of several flits on channel 0, and one of one flit on channel 1 behind its head; port 0 keeps the
bus busy. -/
def busyFirst : Wake := bothPorts 1 ⟨.HEAD, 0, 0⟩ ⟨.HEAD, 0, 1⟩

def busyNext : List Wake := [bothPorts 2 ⟨.BODY, 0, 0⟩ ⟨.HEAD_TAIL, 1, 1⟩, bothPorts 3 ⟨.BODY, 0, 0⟩ ⟨.BODY, 0, 0⟩]

def busyLast : Wake := bothPorts 4 ⟨.BODY, 0, 0⟩ ⟨.TAIL, 0, 0⟩

/-- Without the classes the head and the next flit of channel 0 cross while channel 1 waits. -/
theorem channel_overtaken : ¬ ∀ (b : Bus) (credits : ℕ → ℕ → ℤ) (pre seg : List Wake), ∀ i < b.num_inports, ∀ v,
    During b (VcWaits b i v) (after b (init credits) pre) seg →
      ∀ u, (granted b (after b (init credits) pre) seg).countP (fun g => g.inport = i ∧ g.invc = u) ≤ 1 := by
  intro h
  have hwaits : During (twoPorts false) (VcWaits (twoPorts false) 1 1)
      (after (twoPorts false) (init fourCredits) [busyFirst]) (busyNext ++ [busyLast]) := by decide +kernel
  have hcount := h (twoPorts false) fourCredits [busyFirst] (busyNext ++ [busyLast]) 1 (by decide) 1 hwaits 0
  exact absurd hcount (by decide +kernel)

/-- With the classes on, port 1 and its channel 1 are each passed over once. -/
theorem run_fair_two :
    (granted (twoPorts true) (after (twoPorts true) (init fourCredits) []) [busyFirst]).countP (fun g => g.inport = 0) ≤ 1 ∧
      (granted (twoPorts true) (after (twoPorts true) (init fourCredits) [busyFirst]) busyNext).countP
        (fun g => g.inport = 1 ∧ g.invc = 0) ≤ 1 := by
  constructor
  · have hwaits : During (twoPorts true) (PortWaits (twoPorts true) 1)
        (after (twoPorts true) (init fourCredits) []) [busyFirst] := by
      refine ⟨⟨⟨0, by decide +kernel⟩, by decide +kernel⟩, trivial⟩
    exact (run_fair (twoPorts true) fourCredits [] [busyFirst]).2.1 1 (by decide) hwaits 0
  · have hcond : During (twoPorts true) (fun s w _ => (twoPorts true).updown = true ∨ Lone (twoPorts true) s w)
        (init fourCredits) ([busyFirst] ++ busyNext) := ⟨.inl rfl, .inl rfl, .inl rfl, trivial⟩
    exact (run_fair (twoPorts true) fourCredits [busyFirst] busyNext).2.2 hcond 1 1 (by decide +kernel) 0

end Pimid.Garnet.BusArbiter
