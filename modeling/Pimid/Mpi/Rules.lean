import Pimid.Mpi.Frame
import Pimid.Mpi.Round

/-!
# Rules for collectives

A collective is a sequence of phases. In an *exchange* every rank of a set does
one `xchg_bytes` with its partners; in a *delivery* every rank of one set sends
and every rank of another receives. Ranks outside the sets stay where they are
in their programs, so the ranks of a tree may be at very different points.

Both rules are `Sync.round` with the bookkeeping of who takes part; what a user
owes is `Partners`: who they are, that they agree, and the bounds of the buffers.
`Together` is what the collectives are stated with: `P` ranks advance from one
program to another. `ascend` and `descend` run a loop of phases under an
invariant.
-/

namespace Pimid.Mpi

open Pimid.Net

variable {α : Type} {P : Nat} {m : Nat → Mem} {p q : Nat → Rank α}

/-! ## Who takes part -/

/-- What the ranks of `A` send or receive; no other rank takes part. -/
def among {β : Type} (P : Nat) (A : Nat → Prop) [DecidablePred A] (x : Nat → β) (r : Nat) : Option β :=
  if r < P ∧ A r then some (x r) else none

section

variable {β : Type} {A : Nat → Prop} [DecidablePred A] {x : Nat → β} {r : Nat}

theorem among_of (hr : r < P) (hA : A r) : among P A x r = some (x r) := if_pos ⟨hr, hA⟩

theorem among_of_not (h : ¬(r < P ∧ A r)) : among P A x r = none := if_neg h

theorem among_eq_some {y : β} : among P A x r = some y ↔ (r < P ∧ A r) ∧ x r = y := by
  rw [among, Option.ite_none_right_eq_some, Option.some.injEq]

end

/-- The senders `S` and the receivers `R` agree, and the messages fit the buffers. -/
structure Partners (P : Nat) (m : Nat → Mem) (S R : Nat → Prop) (tx : Nat → Tx) (rx : Nat → Rx) : Prop where
  dst : ∀ s, s < P → S s → (tx s).dst < P ∧ R (tx s).dst ∧ (rx (tx s).dst).src = s
  src : ∀ d, d < P → R d → (rx d).src < P ∧ S (rx d).src ∧ (tx (rx d).src).dst = d
  read : ∀ s, s < P → S s → Fits (m s (tx s).buf) (tx s).off (tx s).len
  write : ∀ d, d < P → R d → Fits (m d (rx d).buf) (rx d).off (tx (rx d).src).len
  cap : ∀ d, d < P → R d → (tx (rx d).src).len ≤ (rx d).cap
  apart : ∀ r, r < P → S r → R r → (tx r).buf ≠ (rx r).buf ∨ Apart (tx r).off (tx r).len (rx r).off (tx (rx r).src).len

section

variable {S R : Nat → Prop} [DecidablePred S] [DecidablePred R] {tx : Nat → Tx} {rx : Nat → Rx}

theorem Partners.roundOk (h : Partners P m S R tx rx) (hP : 2 ≤ P) : RoundOk P m (among P S tx) (among P R rx) := by
  constructor
  · exact hP
  · intro r hr
    exact ⟨among_of_not fun h => absurd h.1 (by omega), among_of_not fun h => absurd h.1 (by omega)⟩
  · intro s t ht
    obtain ⟨⟨hs, hS⟩, rfl⟩ := among_eq_some.mp ht
    obtain ⟨hlt, hd, hsd⟩ := h.dst s hs hS
    have hw := h.write _ hlt hd
    have hc := h.cap _ hlt hd
    rw [hsd] at hw hc
    exact ⟨hlt, h.read s hs hS, _, among_of hlt hd, hsd, hc, hw⟩
  · intro d x hx
    obtain ⟨⟨hd, hR⟩, rfl⟩ := among_eq_some.mp hx
    obtain ⟨hlt, hs, hds⟩ := h.src d hd hR
    exact ⟨_, among_of hlt hs, hds⟩
  · intro r t x t' ht hx ht'
    obtain ⟨⟨hr, hS⟩, rfl⟩ := among_eq_some.mp ht
    obtain ⟨⟨-, hR⟩, rfl⟩ := among_eq_some.mp hx
    obtain ⟨-, rfl⟩ := among_eq_some.mp ht'
    exact h.apart r hr hS hR

/-- A receiver ends with its partner's bytes in the place it posted. -/
theorem Partners.received (h : Partners P m S R tx rx) (hP : 2 ≤ P) {d : Nat} (hd : d < P) (hR : R d) :
    (incoming m (among P S tx) (among P R rx) d).length = (tx (rx d).src).len ∧
      Mpi.received m (among P S tx) (among P R rx) d =
        (m d).put (rx d).buf (rx d).off ((tx (rx d).src).data (m (rx d).src)) := by
  obtain ⟨t, ht, -, hin, hlen⟩ := (h.roundOk hP).incoming_eq (among_of hd hR)
  obtain ⟨-, rfl⟩ := among_eq_some.mp ht
  refine ⟨hlen, ?_⟩
  unfold Mpi.received
  rw [hin, among_of hd hR]
  rfl

end

/-! ## The ranks of one job -/

/-- The `P` ranks of a job run `p`; no other rank exists. -/
def world (P : Nat) (p : Nat → Rank α) (z : Nat → α) : Nat → Rank α :=
  fun r => if r < P then p r else .ret (z r)

/-- `P` ranks can advance together from `p` to `q`. -/
def Together (P : Nat) (p q : Nat → Rank α) : Prop := ∀ z, Sync (world P p z) (world P q z)

theorem world_lt {z : Nat → α} {r : Nat} (h : r < P) : world P p z r = p r := if_pos h

theorem world_ge {z : Nat → α} {r : Nat} (h : ¬ r < P) : world P p z r = .ret (z r) := if_neg h

namespace Together

theorem of_eq (h : ∀ r, r < P → p r = q r) : Together P p q := by
  refine fun z => Sync.of_eq fun r => ?_
  by_cases hr : r < P
  · rw [world_lt hr, world_lt hr, h r hr]
  · rw [world_ge hr, world_ge hr]

theorem refl (p : Nat → Rank α) : Together P p p := of_eq fun _ _ => rfl

theorem trans {p₁ p₂ p₃ : Nat → Rank α} (h : Together P p₁ p₂) (h' : Together P p₂ p₃) :
    Together P p₁ p₃ := fun z => (h z).trans (h' z)

theorem bind {β : Type} [Nonempty α] (h : Together P p q) (k : Nat → α → Rank β) :
    Together P (fun r => p r >>= k r) (fun r => q r >>= k r) := by
  intro z
  obtain ⟨a⟩ := ‹Nonempty α›
  have hb := (h fun _ => a).bind fun r => if r < P then k r else fun _ => .ret (z r)
  have hw : ∀ p : Nat → Rank α, (fun r => world P p (fun _ => a) r >>=
      if r < P then k r else fun _ => .ret (z r)) = world P (fun r => p r >>= k r) z := by
    intro p
    funext r
    by_cases hr : r < P
    · rw [world_lt hr, world_lt hr, if_pos hr]
    · rw [world_ge hr, world_ge hr, if_neg hr, Prog.ret_bind]
  rw [hw, hw] at hb
  exact hb

theorem completes {f z : Nat → α} (h : Together P p fun r => .ret (f r)) :
    Completes (world P p z) fun r => if r < P then f r else z r := by
  refine Sync.completes ((h z).trans (Sync.of_eq fun r => ?_))
  by_cases hr : r < P
  · rw [world_lt hr, if_pos hr]
  · rw [world_ge hr, if_neg hr]

/-- **An exchange** among the ranks of `A`: each sends `tx` and receives `rx`. -/
theorem exchange (A : Nat → Prop) [DecidablePred A] (hP : 2 ≤ P) (tx : Nat → Tx)
    (rx : Nat → Rx) (k : Nat → Nat × Mem → Rank α)
    (hdst : ∀ r, r < P → A r → (tx r).dst < P ∧ A (tx r).dst ∧ (rx (tx r).dst).src = r)
    (hsrc : ∀ r, r < P → A r → (rx r).src < P ∧ A (rx r).src ∧ (tx (rx r).src).dst = r)
    (hread : ∀ r, r < P → A r → Fits (m r (tx r).buf) (tx r).off (tx r).len)
    (hwrite : ∀ r, r < P → A r → Fits (m r (rx r).buf) (rx r).off (tx (rx r).src).len)
    (hcap : ∀ r, r < P → A r → (tx (rx r).src).len ≤ (rx r).cap)
    (hapart : ∀ r, r < P → A r → (tx r).buf ≠ (rx r).buf ∨
      Apart (tx r).off (tx r).len (rx r).off (tx (rx r).src).len)
    (hp : ∀ r, r < P → A r → p r = (xchgBytes P (m r) (tx r).buf (tx r).off (tx r).len (tx r).dst
      (rx r).buf (rx r).off (rx r).cap (rx r).src >>= k r))
    (hq : ∀ r, r < P → A r → q r = k r ((tx (rx r).src).len,
      (m r).put (rx r).buf (rx r).off ((tx (rx r).src).data (m (rx r).src))))
    (hrest : ∀ r, r < P → ¬ A r → q r = p r) : Together P p q := by
  intro z
  have h : Partners P m A A tx rx := ⟨hdst, hsrc, hread, hwrite, hcap, fun r hr hA _ => hapart r hr hA⟩
  have hround := Sync.round (h.roundOk hP) (k := fun r => if r < P ∧ A r then k r else fun _ => world P p z r)
    (p := world P p z) (by
    intro r
    by_cases hr : r < P ∧ A r
    · rw [world_lt hr.1, hp r hr.1 hr.2, among_of hr.1 hr.2, among_of hr.1 hr.2, if_pos hr]
      rfl
    · rw [among_of_not hr, among_of_not hr, if_neg hr, comm, Prog.ret_bind])
  refine hround.trans (Sync.of_eq fun r => ?_)
  by_cases hr : r < P ∧ A r
  · obtain ⟨hlen, hmem⟩ := h.received hP hr.1 hr.2
    rw [if_pos hr, hlen, hmem, world_lt hr.1, hq r hr.1 hr.2]
  · rw [if_neg hr]
    by_cases hlt : r < P
    · rw [world_lt hlt, world_lt hlt, hrest r hlt fun hA => hr ⟨hlt, hA⟩]
    · rw [world_ge hlt, world_ge hlt]

/-- **A delivery** from the ranks of `S`, which send `tx`, to the ranks of `R`,
which receive `rx`. -/
theorem deliver (S R : Nat → Prop) [DecidablePred S] [DecidablePred R] (hP : 2 ≤ P)
    (tx : Nat → Tx) (rx : Nat → Rx) (k : Nat → Nat × Mem → Rank α)
    (hS : ∀ s, s < P → S s → (tx s).dst < P ∧ R (tx s).dst ∧ (rx (tx s).dst).src = s)
    (hR : ∀ d, d < P → R d → (rx d).src < P ∧ S (rx d).src ∧ (tx (rx d).src).dst = d)
    (hSR : ∀ r, r < P → S r → ¬ R r)
    (hread : ∀ s, s < P → S s → Fits (m s (tx s).buf) (tx s).off (tx s).len)
    (hwrite : ∀ d, d < P → R d → Fits (m d (rx d).buf) (rx d).off (tx (rx d).src).len)
    (hcap : ∀ d, d < P → R d → (tx (rx d).src).len ≤ (rx d).cap)
    (hps : ∀ s, s < P → S s → p s
      = (sendBytes P (m s) (tx s).buf (tx s).off (tx s).len (tx s).dst 0 >>= fun _ => q s))
    (hpr : ∀ d, d < P → R d → p d
      = (recvBytes P (m d) (rx d).buf (rx d).off (rx d).cap (rx d).src >>= k d))
    (hqr : ∀ d, d < P → R d → q d = k d ((tx (rx d).src).len,
      (m d).put (rx d).buf (rx d).off ((tx (rx d).src).data (m (rx d).src))))
    (hrest : ∀ r, r < P → ¬ S r → ¬ R r → q r = p r) : Together P p q := by
  intro z
  have h : Partners P m S R tx rx := ⟨hS, hR, hread, hwrite, hcap, fun r hr hs hd => absurd hd (hSR r hr hs)⟩
  have hround := Sync.round (h.roundOk hP) (k := fun r => if r < P ∧ R r then k r else fun _ => world P q z r)
    (p := world P p z) (by
    intro r
    by_cases hr : r < P ∧ R r
    · have hs : ¬(r < P ∧ S r) := fun h => hSR r h.1 h.2 hr.2
      rw [world_lt hr.1, hpr r hr.1 hr.2, among_of_not hs, among_of hr.1 hr.2, if_pos hr]
      rfl
    · by_cases hs : r < P ∧ S r
      · rw [world_lt hs.1, world_lt hs.1, hps r hs.1 hs.2, among_of hs.1 hs.2, among_of_not hr, if_neg hr]
        simp only [comm, Prog.bind_assoc, Prog.ret_bind]
      · rw [among_of_not hs, among_of_not hr, if_neg hr, comm, Prog.ret_bind]
        by_cases hlt : r < P
        · rw [world_lt hlt, world_lt hlt, hrest r hlt (fun h => hs ⟨hlt, h⟩) fun h => hr ⟨hlt, h⟩]
        · rw [world_ge hlt, world_ge hlt])
  refine hround.trans (Sync.of_eq fun r => ?_)
  by_cases hr : r < P ∧ R r
  · obtain ⟨hlen, hmem⟩ := h.received hP hr.1 hr.2
    rw [if_pos hr, hlen, hmem, world_lt hr.1, hqr r hr.1 hr.2]
  · rw [if_neg hr]

theorem ascend {σ : Type} {n : Nat} (prog : Nat → σ → Nat → Rank α) (I : Nat → σ → Prop)
    (step : ∀ i s, i < n → I i s → ∃ s', I (i + 1) s' ∧ Together P (prog i s) (prog (i + 1) s'))
    {s : σ} (h0 : I 0 s) : ∃ s', I n s' ∧ Together P (prog 0 s) (prog n s') := by
  have hrun : ∀ i, i ≤ n → ∃ s', I i s' ∧ Together P (prog 0 s) (prog i s') := by
    intro i
    induction i with
    | zero => exact fun _ => ⟨s, h0, .refl _⟩
    | succ i ih =>
      intro hi
      obtain ⟨s₁, h₁, hs₁⟩ := ih (by omega)
      obtain ⟨s₂, h₂, hs₂⟩ := step i s₁ (by omega) h₁
      exact ⟨s₂, h₂, hs₁.trans hs₂⟩
  exact hrun n (Nat.le_refl n)

theorem descend {σ : Type} {n : Nat} (prog : Nat → σ → Nat → Rank α) (I : Nat → σ → Prop)
    (step : ∀ i s, i < n → I (i + 1) s → ∃ s', I i s' ∧ Together P (prog (i + 1) s) (prog i s'))
    {s : σ} (hn : I n s) : ∃ s', I 0 s' ∧ Together P (prog n s) (prog 0 s') := by
  have hrun := ascend (P := P) (n := n) (fun i => prog (n - i)) (fun i => I (n - i)) (s := s) (by
    intro i s hi h
    rw [show n - i = (n - (i + 1)) + 1 by omega] at h
    obtain ⟨s', h', hs'⟩ := step _ s (by omega) h
    refine ⟨s', h', ?_⟩
    rw [show n - i = (n - (i + 1)) + 1 by omega]
    exact hs') hn
  simpa using hrun

end Together

end Pimid.Mpi
