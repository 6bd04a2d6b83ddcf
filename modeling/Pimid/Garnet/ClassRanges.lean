import Pimid.Garnet.UpDown

/-!
# Every class has its channels

A packet that needs a class waits until a channel of the class's range is free: where the range is empty
it waits for ever. The routers split a virtual network in two, each in its own way where there is nothing
to split, and each builder has its own idea of how many channels are enough.
-/

namespace Pimid.Garnet

/-- The builders of networks whose routers take channels by class. `buildRing` is that of both directions. -/
inductive ClassBuilder where
  | buildTorus
  | buildRing
  | buildFromFile
deriving DecidableEq, Repr

namespace ClassBuilder

/-- `buildTorus` refuses fewer than two channels a virtual network; the others take any number. -/
def Accepts : ClassBuilder → Nat → Prop
  | .buildTorus, vcPerVnet => 2 ≤ vcPerVnet
  | .buildRing, _ => True
  | .buildFromFile, _ => True

/-- `getClassRange` of the routers built: a torus and a ring have `RingRouter`s, the tree of a file `TreeRouter`s. -/
def classRange : ClassBuilder → (vcPerVnet vnet vcClass : Nat) → Nat × Nat
  | .buildTorus => getClassRange
  | .buildRing => getClassRange
  | .buildFromFile => TreeRouter.getClassRange

end ClassBuilder

/-- `lo ≤ vc < hi`. -/
def InRange (range : Nat × Nat) (vc : Nat) : Prop := range.1 ≤ vc ∧ vc < range.2

/-- The ranges of the two classes of a virtual network: there is a channel for either, all are the network's own, with
two or more channels they split it, and a channel lies in the range of the class it has. -/
structure ClassesOk (range : Nat → Nat × Nat) (vcPerVnet vnet : Nat) : Prop where
  nonempty : ∀ cls ≤ 1, (range cls).1 < (range cls).2
  inside : ∀ cls ≤ 1, vnet * vcPerVnet ≤ (range cls).1 ∧ (range cls).2 ≤ vnet * vcPerVnet + vcPerVnet
  disjoint : 2 ≤ vcPerVnet → ∀ vc, InRange (range 0) vc → ¬ InRange (range 1) vc
  cover : 2 ≤ vcPerVnet → ∀ vc, InRange (vnet * vcPerVnet, vnet * vcPerVnet + vcPerVnet) vc →
    InRange (range 0) vc ∨ InRange (range 1) vc
  classed : ∀ vc, InRange (vnet * vcPerVnet, vnet * vcPerVnet + vcPerVnet) vc →
    InRange (range (vcClassOf vcPerVnet vc)) vc

variable {v vnet : Nat}

theorem getClassRange_lower (hv : 2 ≤ v) : getClassRange v vnet 0 = (vnet * v, vnet * v + v / 2) := by
  unfold getClassRange
  rw [if_pos rfl, if_neg (show ¬ v / 2 = 0 by omega)]

theorem getClassRange_upper (hv : 2 ≤ v) : getClassRange v vnet 1 = (vnet * v + v / 2, vnet * v + v) := by
  unfold getClassRange
  rw [if_neg Nat.one_ne_zero, if_neg (show ¬ v / 2 = 0 by omega)]

/-- With two channels or more the halves are a split. -/
theorem classesOk_of_two_le (hv : 2 ≤ v) : ClassesOk (getClassRange v vnet) v vnet where
  nonempty := by
    intro cls hcls
    obtain rfl | rfl : cls = 0 ∨ cls = 1 := by omega
    · rw [getClassRange_lower hv]
      dsimp only
      omega
    · rw [getClassRange_upper hv]
      dsimp only
      omega
  inside := by
    intro cls hcls
    obtain rfl | rfl : cls = 0 ∨ cls = 1 := by omega
    · rw [getClassRange_lower hv]
      dsimp only
      omega
    · rw [getClassRange_upper hv]
      dsimp only
      omega
  disjoint := by
    intro _ vc h0 h1
    rw [getClassRange_lower hv] at h0
    rw [getClassRange_upper hv] at h1
    exact absurd h0.2 (Nat.not_lt_of_le h1.1)
  cover := by
    intro _ vc hvc
    rw [getClassRange_lower hv, getClassRange_upper hv]
    rcases Nat.lt_or_ge vc (vnet * v + v / 2) with h | h
    · exact Or.inl ⟨hvc.1, h⟩
    · exact Or.inr ⟨h, hvc.2⟩
  classed := by
    intro vc hvc
    rcases Nat.lt_or_ge vc (vnet * v + v / 2) with h | h
    · have hlow : InRange (getClassRange v vnet 0) vc := by
        rw [getClassRange_lower hv]
        exact ⟨hvc.1, h⟩
      rw [vcClassOf_of_range hv (Nat.zero_le 1) hlow.1 hlow.2]
      exact hlow
    · have hhigh : InRange (getClassRange v vnet 1) vc := by
        rw [getClassRange_upper hv]
        exact ⟨h, hvc.2⟩
      rw [vcClassOf_of_range hv (Nat.le_refl 1) hhigh.1 hhigh.2]
      exact hhigh

/-- With one channel a dateline router has none left for class 1. -/
theorem two_le_of_classesOk (h : ClassesOk (getClassRange v vnet) v vnet) : 2 ≤ v := by
  by_contra hv
  have hhalf : v / 2 = 0 := by omega
  have hclass1 := h.nonempty 1 (Nat.le_refl 1)
  unfold getClassRange at hclass1
  rw [if_neg Nat.one_ne_zero, if_pos hhalf] at hclass1
  dsimp only at hclass1
  omega

theorem tree_classesOk_iff : ClassesOk (TreeRouter.getClassRange v vnet) v vnet ↔ 1 ≤ v := by
  constructor
  · intro h
    by_contra hv
    have hshared := h.nonempty 0 (Nat.zero_le 1)
    unfold TreeRouter.getClassRange upDownRange at hshared
    rw [if_pos (by omega)] at hshared
    dsimp only at hshared
    omega
  · intro hv
    rcases Nat.lt_or_ge 1 v with h2 | h1
    · have hsame : TreeRouter.getClassRange v vnet = getClassRange v vnet := by
        funext cls
        exact if_neg (Nat.not_le_of_lt h2)
      rw [hsame]
      exact classesOk_of_two_le h2
    · have hshared (cls : Nat) : TreeRouter.getClassRange v vnet cls = (vnet * v, vnet * v + v) := if_pos h1
      refine ⟨fun cls _ => ?_, fun cls _ => ?_, fun h2 => ?_, fun h2 => ?_, fun vc hvc => ?_⟩
      · rw [hshared]
        dsimp only
        omega
      · rw [hshared]
        exact ⟨Nat.le_refl _, Nat.le_refl _⟩
      · omega
      · omega
      · rw [hshared]
        exact hvc

/-- **Every packet can be given a channel of its class** iff a ring has two channels a virtual network, and the tree of
a file one. -/
theorem classesOk_iff (b : ClassBuilder) (v vnet : Nat) (h : b.Accepts v) :
    ClassesOk (b.classRange v vnet) v vnet ↔ 1 ≤ v ∧ (b = .buildRing → 2 ≤ v) := by
  cases b with
  | buildTorus =>
    have hv : 2 ≤ v := h
    exact iff_of_true (classesOk_of_two_le hv) ⟨Nat.le_of_succ_le hv, fun _ => hv⟩
  | buildRing =>
    constructor
    · intro hok
      have hv := two_le_of_classesOk hok
      exact ⟨Nat.le_of_succ_le hv, fun _ => hv⟩
    · rintro ⟨-, hv⟩
      exact classesOk_of_two_le (hv rfl)
  | buildFromFile =>
    refine tree_classesOk_iff.trans ⟨fun hv => ⟨hv, ?_⟩, And.left⟩
    intro hring
    cases hring

theorem classesOk_iff_ring_two : ClassBuilder.buildRing.Accepts 2 ∧
    (ClassesOk (ClassBuilder.buildRing.classRange 2 1) 2 1 ↔ 1 ≤ 2 ∧ (ClassBuilder.buildRing = .buildRing → 2 ≤ 2)) :=
  ⟨trivial, classesOk_iff .buildRing 2 1 trivial⟩

/-- A ring of both directions is built with one channel, and then class 1 has none. -/
theorem ring_one_channel :
    ClassBuilder.buildRing.Accepts 1 ∧ ¬ ClassesOk (ClassBuilder.buildRing.classRange 1 0) 1 0 :=
  ⟨trivial, fun h => absurd (h.nonempty 1 (Nat.le_refl 1)) (by decide)⟩

end Pimid.Garnet
