import Pimid.Garnet.Topology

/-!
# Classes of virtual channels

The dateline routers and the tree routers split the virtual channels of a virtual
network into a lower and an upper half. The class of a channel a packet comes in on
is read off its number; the next one is taken from the range of the wanted class.
-/

namespace Pimid.Garnet

/-- The lower half of the virtual network's channels is class 0. -/
def vcClassOf (vcPerVnet vc : Nat) : Nat :=
  let offset := vc % vcPerVnet
  let half := if vcPerVnet / 2 = 0 then 1 else vcPerVnet / 2
  if offset < half then 0 else 1

/-- `[lo, hi)` of a class. -/
def getClassRange (vcPerVnet vnet vcClass : Nat) : Nat × Nat :=
  let base := vnet * vcPerVnet
  let half := if vcPerVnet / 2 = 0 then 1 else vcPerVnet / 2
  if vcClass = 0 then (base, base + half) else (base + half, base + vcPerVnet)

theorem vcClassOf_of_range {v vnet cls vc : Nat} (hv : 2 ≤ v) (hcls : cls ≤ 1) (hlo : (getClassRange v vnet cls).1 ≤ vc)
    (hhi : vc < (getClassRange v vnet cls).2) : vcClassOf v vc = cls := by
  have hhalf : ¬v / 2 = 0 := by omega
  simp only [getClassRange, hhalf, if_false] at hlo hhi
  simp only [vcClassOf, hhalf, if_false]
  obtain ⟨off, rfl⟩ : ∃ off, vc = vnet * v + off := ⟨vc - vnet * v, by split at hlo <;> omega⟩
  have hoff : off < v := by split at hhi <;> dsimp only at hhi <;> omega
  rw [Nat.add_comm, Nat.add_mul_mod_self_right, Nat.mod_eq_of_lt hoff]
  split at hlo <;> split at hhi <;> split <;> omega

theorem vcClassOf_le (v vc : Nat) : vcClassOf v vc ≤ 1 := by
  unfold vcClassOf
  dsimp only
  split <;> split <;> decide

end Pimid.Garnet
