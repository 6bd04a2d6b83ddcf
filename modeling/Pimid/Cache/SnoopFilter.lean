import Pimid.Cache.Ninc
import Pimid.Lib.Probing

/-!
# The snoop filter's table

An open-addressing hash table with linear probing: a line's entry and beside it the words
with a bit for each child that holds the line. A slot without sharers is free. The table is
doubled before it is more than three quarters full, and an erased slot is filled by moving
later entries back. The loops get as many steps as the table has slots; one that needs more
gives `none`.
-/

namespace Pimid.Cache

/-- What stands for `sfHome`: for each capacity a slot of every line. -/
structure Hash where
  home : Nat → Nat → Nat
  lt : ∀ k a, home (2 ^ k) a < 2 ^ k

/-- An entry of the table; with no sharers it is free. -/
structure Slot where
  tag : Nat := 0
  numSharers : Nat := 0
  exclusive : Bool := false
  mem : MESIState := .I

structure SnoopFilter where
  sfTab : Nat → Slot
  sfBits : Nat → BitVec 64
  sfWords : Nat
  sfCap : Nat
  sfUsed : Nat

/-- What a caller writes at a slot: the entry's fields, and the children set (`sfSet`) and cleared (`sfClr`), in order. -/
structure Writes where
  numSharers : Nat
  exclusive : Bool
  mem : MESIState
  bits : List (Nat × Bool)

namespace SnoopFilter

variable (f : SnoopFilter) (H : Hash)

/-- The multiplicative hash of the header. -/
def sfHome : Hash where
  home cap a := (a * 0x9E3779B97F4A7C15 % 2 ^ 64) >>> (64 - Nat.log2 cap)
  lt k a := by
    have hlt : a * 0x9E3779B97F4A7C15 % 2 ^ 64 < 2 ^ 64 := Nat.mod_lt _ (by decide)
    rw [Nat.log2_two_pow, Nat.shiftRight_eq_div_pow]
    rcases Nat.le_total k 64 with hk | hk
    · refine Nat.div_lt_of_lt_mul ?_
      rw [← Nat.pow_add, Nat.sub_add_cancel hk]
      exact hlt
    · rw [Nat.sub_eq_zero_of_le hk, Nat.pow_zero, Nat.div_one]
      exact Nat.lt_of_lt_of_le hlt (Nat.pow_le_pow_right (by decide) hk)

/-! ## Sharers -/

def sfHas (slot c : Nat) : Bool := (f.sfBits (slot * f.sfWords + c / 64)).getLsbD (c % 64)

def sfSet (slot c : Nat) : SnoopFilter :=
  { f with
    sfBits := Function.update f.sfBits (slot * f.sfWords + c / 64)
      (f.sfBits (slot * f.sfWords + c / 64) ||| 1#64 <<< (c % 64)) }

def sfClr (slot c : Nat) : SnoopFilter :=
  { f with
    sfBits := Function.update f.sfBits (slot * f.sfWords + c / 64)
      (f.sfBits (slot * f.sfWords + c / 64) &&& ~~~(1#64 <<< (c % 64))) }

/-- The words of a slot are copied or filled. -/
def putWords (slot : Nat) (words : Nat → BitVec 64) : SnoopFilter :=
  { f with
    sfBits := fun x =>
      if slot * f.sfWords ≤ x ∧ x < (slot + 1) * f.sfWords then words (x - slot * f.sfWords) else f.sfBits x }

def putEntry (slot : Nat) (e : Slot) : SnoopFilter := { f with sfTab := Function.update f.sfTab slot e }

/-! ## The operations -/

def nextSlot (s : Nat) : Nat := (s + 1) &&& (f.sfCap - 1)

/-- The loop of `sfFind`; the inner `none` is its `-1`. -/
def findFrom (a : Nat) : Nat → Nat → Option (Option Nat)
  | 0, _ => none
  | fuel + 1, s =>
    if (f.sfTab s).numSharers = 0 then some none
    else if (f.sfTab s).tag = a then some (some s)
    else findFrom a fuel (f.nextSlot s)

def sfFind (a : Nat) : Option (Option Nat) := f.findFrom a f.sfCap (H.home f.sfCap a)

/-- The first slot from `s` on without sharers. -/
def freeFrom : Nat → Nat → Option Nat
  | 0, _ => none
  | fuel + 1, s => if (f.sfTab s).numSharers = 0 then some s else freeFrom fuel (f.nextSlot s)

/-- An empty table. -/
def calloc (words cap : Nat) : SnoopFilter := ⟨fun _ => {}, fun _ => 0, words, cap, 0⟩

/-- Slot `s` of the old table gets its slot in this one. -/
def rehome (old : SnoopFilter) (s : Nat) : Option SnoopFilter :=
  if (old.sfTab s).numSharers = 0 then some f
  else (f.freeFrom f.sfCap (H.home f.sfCap (old.sfTab s).tag)).map fun t =>
    { (f.putEntry t (old.sfTab s)).putWords t fun w => old.sfBits (s * old.sfWords + w) with sfUsed := f.sfUsed + 1 }

def sfAlloc (cap : Nat) : Option SnoopFilter :=
  (List.range f.sfCap).foldlM (fun g s => g.rehome H f s) (calloc f.sfWords cap)

/-- The table, doubled if one more would fill more than three quarters. -/
def grown : Option SnoopFilter := if 4 * (f.sfUsed + 1) > 3 * f.sfCap then f.sfAlloc H (2 * f.sfCap) else some f

/-- The slot, without sharers yet: the caller adds the first. -/
def sfAdd (a : Nat) (mem : MESIState) : Option (Nat × SnoopFilter) := do
  let f ← f.grown H
  let s ← f.freeFrom f.sfCap (H.home f.sfCap a)
  some (s, { (f.putEntry s { tag := a, mem }).putWords s fun _ => 0 with sfUsed := f.sfUsed + 1 })

/-- The home `k` lies cyclically in `(i, j]`. -/
def stays (i j k : Nat) : Bool := if i ≤ j then i < k && k ≤ j else i < k || k ≤ j

def moveSlot (i j : Nat) : SnoopFilter :=
  (f.putEntry i (f.sfTab j)).putWords i fun w => f.sfBits (j * f.sfWords + w)

/-- The loop of `sfErase`: the hole it ends with. -/
def shiftBack : Nat → SnoopFilter → Nat → Nat → Option (Nat × SnoopFilter)
  | 0, _, _, _ => none
  | fuel + 1, f, i, j =>
    let j := f.nextSlot j
    if (f.sfTab j).numSharers = 0 then some (i, f)
    else if stays i j (H.home f.sfCap (f.sfTab j).tag) then shiftBack fuel f i j
    else shiftBack fuel (f.moveSlot i j) j j

def sfErase (i : Nat) : Option SnoopFilter :=
  (shiftBack H f.sfCap f i i).map fun r =>
    { (r.2.putEntry r.1 { r.2.sfTab r.1 with numSharers := 0, tag := 0 }).putWords r.1 fun _ => 0 with
      sfUsed := r.2.sfUsed - 1 }

/-- A slot's entry and sharers are written in place. -/
def write (slot : Nat) (w : Writes) : SnoopFilter :=
  w.bits.foldl (fun f p => if p.2 then f.sfSet slot p.1 else f.sfClr slot p.1)
    (f.putEntry slot { tag := (f.sfTab slot).tag, numSharers := w.numSharers, exclusive := w.exclusive, mem := w.mem })

end SnoopFilter

end Pimid.Cache
