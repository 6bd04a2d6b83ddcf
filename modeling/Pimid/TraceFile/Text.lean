import Mathlib.Data.List.TakeWhile
import Pimid.TraceFile.Metadata

/-!
# Lines, keys and numbers

How a line of the metadata reads that was written as `key: value`, and how a number does.
A string is plain when the parser leaves it as it is: no line break, no blank at an end.
-/

namespace Pimid.TraceFile

variable {D : Type}

theorem text_split {s t u : String} (h : s = t ++ u) : text s = text t ++ text u := by
  rw [h, text, String.toList_append, List.map_append]
  rfl

/-! ## Plain strings -/

structure Plain (l : List UInt8) : Prop where
  oneLine : 10 ∉ l
  head : ∀ c ∈ l.head?, isBlank c = false
  last : ∀ c ∈ l.getLast?, isBlank c = false

instance (l : List UInt8) : Decidable (Plain l) :=
  decidable_of_iff (10 ∉ l ∧ l.head?.all (!isBlank ·) = true ∧ l.getLast?.all (!isBlank ·) = true) <| by
    rw [Option.all_eq_true, Option.all_eq_true]
    simp only [Bool.not_eq_true']
    exact ⟨fun h => ⟨h.1, h.2.1, h.2.2⟩, fun h => ⟨h.1, h.2, h.3⟩⟩

theorem dropWhile_plain {l : List UInt8} (h : ∀ c ∈ l.head?, isBlank c = false) : l.dropWhile isBlank = l := by
  cases l with
  | nil => rfl
  | cons c r => rw [List.dropWhile_cons_of_neg (by simp [h c rfl])]

/-- The blanks before a plain string go, and nothing else. -/
theorem trim_blanks {b l : List UInt8} (hb : ∀ c ∈ b, isBlank c = true) (h : Plain l) : trim (b ++ l) = l := by
  have hfront : (b ++ l).dropWhile isBlank = l := by
    rw [List.dropWhile_append_of_pos hb, dropWhile_plain h.head]
  have hback : l.reverse.dropWhile isBlank = l.reverse := dropWhile_plain (by rw [List.head?_reverse]; exact h.last)
  rw [trim, hfront, hback, List.reverse_reverse]

/-! ## Lines -/

theorem getlines_cons {l r : List UInt8} (h : 10 ∉ l) : getlines (l ++ 10 :: r) = l :: getlines r := by
  induction l with
  | nil => rfl
  | cons c l ih =>
    rw [List.mem_cons, not_or] at h
    rw [List.cons_append, getlines, if_neg (Ne.symm h.1), ih h.2]

theorem getlines_flatMap {ls : List (List UInt8)} (h : ∀ l ∈ ls, 10 ∉ l) :
    getlines (ls.flatMap fun l => l ++ [10]) = ls := by
  induction ls with
  | nil => rfl
  | cons l ls ih =>
    rw [List.flatMap_cons, List.append_assoc, List.singleton_append, getlines_cons (h l List.mem_cons_self),
      ih fun l' hl' => h l' (List.mem_cons_of_mem _ hl')]

/-- A line of a setting, indented or not. -/
def settingLine (indent key value : List UInt8) : List UInt8 := indent ++ key ++ text ": " ++ value

section Setting

variable {indent key value : List UInt8} (hindent : ∀ c ∈ indent, isBlank c = true) (hkey : Plain key)
  (hcolon : 58 ∉ key) (hvalue : Plain value)

include hindent hcolon

theorem findIdx_settingLine : (settingLine indent key value).findIdx? (· == 58) = some (indent ++ key).length := by
  have hbefore : ∀ c ∈ indent ++ key, (c == 58) = false := by
    intro c hc
    rw [beq_eq_false_iff_ne]
    intro h58
    rcases List.mem_append.mp hc with hc | hc
    · have hblank := hindent c hc
      rw [h58] at hblank
      cases hblank
    · rw [h58] at hc
      exact hcolon hc
  have hnone : (indent ++ key).findIdx? (· == 58) = none := List.findIdx?_eq_none_iff.mpr hbefore
  rw [settingLine, List.append_assoc, List.findIdx?_append, hnone]
  simp [text, List.findIdx?_cons]

include hkey hvalue

/-- **A line `key: value` reads as that setting**, unless it is not indented and has no
value: then it reads as the header of a section. -/
theorem readLine_settingLine (hhash : indent = [] → key.head? ≠ some 35) :
    readLine (settingLine indent key value) =
      if value.isEmpty && indent.isEmpty then .header key else .setting key value := by
  have hfind : (settingLine indent key value).findIdx? (· == 58) = _ := findIdx_settingLine hindent hcolon
  have hsplit : settingLine indent key value = (indent ++ key) ++ 58 :: 32 :: value := by
    simp [settingLine, text]
  have hcolonAfter : (58 : UInt8) ∈ settingLine indent key value := by
    rw [hsplit]
    exact List.mem_append_right _ List.mem_cons_self
  have htake : trim ((settingLine indent key value).take (indent ++ key).length) = key := by
    rw [hsplit, List.take_left, trim_blanks hindent hkey]
  have hdrop : trim ((settingLine indent key value).drop ((indent ++ key).length + 1)) = value := by
    have hrest : ((indent ++ key) ++ 58 :: 32 :: value).drop ((indent ++ key).length + 1) = [32] ++ value := by
      rw [← List.drop_drop, List.drop_left]
      rfl
    rw [hsplit, hrest, trim_blanks (List.forall_mem_singleton.mpr rfl) hvalue]
  have hhead : (settingLine indent key value).head? = (indent ++ key ++ [58]).head? := by
    rw [hsplit]
    cases indent ++ key <;> rfl
  have hkept : ((settingLine indent key value).isEmpty || (settingLine indent key value).head? == some 35 ||
      settingLine indent key value == text "---") = false := by
    rw [Bool.or_eq_false_iff, Bool.or_eq_false_iff]
    refine ⟨⟨?_, ?_⟩, ?_⟩
    · rw [List.isEmpty_eq_false_iff]
      exact List.ne_nil_of_mem hcolonAfter
    · rw [hhead, beq_eq_false_iff_ne]
      cases indent with
      | nil =>
        cases key with
        | nil => decide
        | cons c r => exact hhash rfl
      | cons c r =>
        intro h35
        have hblank := hindent c List.mem_cons_self
        rw [Option.some.inj h35] at hblank
        cases hblank
    · rw [beq_eq_false_iff_ne]
      intro hdashes
      rw [hdashes] at hcolonAfter
      exact absurd hcolonAfter (by decide)
  have hindented : (value.isEmpty && (settingLine indent key value).head? != some 32 &&
      (settingLine indent key value).head? != some 9) = (value.isEmpty && indent.isEmpty) := by
    rw [hhead, Bool.and_assoc]
    congr 1
    cases indent with
    | nil =>
      cases key with
      | nil => rfl
      | cons c r =>
        have hc := hkey.head c rfl
        rw [isBlank, Bool.or_eq_false_iff, beq_eq_false_iff_ne, beq_eq_false_iff_ne] at hc
        simp [hc.1, hc.2]
    | cons c r =>
      have hc := hindent c List.mem_cons_self
      rw [isBlank, Bool.or_eq_true, beq_iff_eq, beq_iff_eq] at hc
      rcases hc with rfl | rfl <;> rfl
  rw [readLine, hkept, hfind]
  simp only [Bool.false_eq_true, if_false]
  rw [htake, hdrop, hindented]

end Setting

/-! ## Numbers -/

theorem isDigit_byte {c : Char} (h : c.isDigit = true) :
    isDigit c.toNat.toUInt8 = true ∧ c.toNat.toUInt8.toNat = c.toNat := by
  have hrange : 48 ≤ c.toNat ∧ c.toNat ≤ 57 := by
    rw [Char.isDigit, Bool.and_eq_true, decide_eq_true_iff, decide_eq_true_iff] at h
    exact h
  have hval : c.toNat.toUInt8.toNat = c.toNat := by
    rw [Nat.toUInt8, UInt8.toNat_ofNat', Nat.mod_eq_of_lt (by omega)]
  refine ⟨?_, hval⟩
  rw [isDigit, Bool.and_eq_true, decide_eq_true_iff, decide_eq_true_iff, UInt8.le_iff_toNat_le, UInt8.le_iff_toNat_le, hval]
  exact hrange

theorem isDigit_putNat {k : Nat} : ∀ c ∈ putNat k, isDigit c = true := by
  intro c hc
  obtain ⟨d, hd, rfl⟩ := List.mem_map.mp hc
  exact (isDigit_byte (Nat.isDigit_of_mem_toDigits (by decide) (by decide) hd)).1

theorem putNat_ne_nil {k : Nat} : putNat k ≠ [] := by
  rw [putNat, ne_eq, List.map_eq_nil_iff]
  exact Nat.toDigits_ne_nil

theorem isBlank_digit {c : UInt8} (h : isDigit c = true) : isBlank c = false := by
  rw [isDigit, Bool.and_eq_true, decide_eq_true_iff] at h
  rw [isBlank, Bool.or_eq_false_iff, beq_eq_false_iff_ne, beq_eq_false_iff_ne]
  constructor
  · intro h32
    rw [h32] at h
    exact absurd h.1 (by decide)
  · intro h9
    rw [h9] at h
    exact absurd h.1 (by decide)

theorem plain_putNat (k : Nat) : Plain (putNat k) := by
  refine ⟨fun h => absurd (isDigit_putNat _ h) (by decide), fun c hc => ?_, fun c hc => ?_⟩
  · exact isBlank_digit (isDigit_putNat c (List.mem_of_mem_head? hc))
  · exact isBlank_digit (isDigit_putNat c (List.mem_of_mem_getLast? hc))

theorem digits_putNat (k : Nat) : digits (putNat k) = k := by
  have hall : (putNat k).takeWhile isDigit = putNat k := List.takeWhile_eq_self_iff.mpr isDigit_putNat
  have hfold : ∀ (cs : List Char) (v : Nat), (∀ c ∈ cs, c.isDigit = true) →
      (cs.map fun c => c.toNat.toUInt8).foldl (fun v c => 10 * v + (c.toNat - 48)) v = Nat.ofDigitChars 10 cs v := by
    intro cs
    induction cs with
    | nil => exact fun _ _ => rfl
    | cons c cs ih =>
      intro v hcs
      rw [List.map_cons, List.foldl_cons, (isDigit_byte (hcs c List.mem_cons_self)).2,
        ih _ fun d hd => hcs d (List.mem_cons_of_mem _ hd), Nat.ofDigitChars_cons]
      rfl
  rw [digits, hall, putNat, hfold _ _ fun c hc => Nat.isDigit_of_mem_toDigits (by decide) (by decide) hc,
    Nat.ofDigitChars_ten_toDigits]

/-- **A number written is the number read.** -/
theorem stoul_putNat {k : Nat} (hk : k < 2 ^ 64) : stoul (putNat k) = .ok (.ofNat k) := by
  cases hput : putNat k with
  | nil => exact absurd hput putNat_ne_nil
  | cons c r =>
    have hc : isDigit c = true := isDigit_putNat c (by rw [hput]; exact List.mem_cons_self)
    have hrange := hc
    rw [isDigit, Bool.and_eq_true, decide_eq_true_iff, decide_eq_true_iff, UInt8.le_iff_toNat_le, UInt8.le_iff_toNat_le]
      at hrange
    have hlow : 48 ≤ c.toNat := hrange.1
    have hspace : isSpace c = false := by
      rw [isSpace, Bool.or_eq_false_iff, Bool.and_eq_false_iff, beq_eq_false_iff_ne, decide_eq_false_iff_not,
        decide_eq_false_iff_not, UInt8.le_iff_toNat_le, UInt8.le_iff_toNat_le]
      refine ⟨fun h32 => ?_, .inr fun h13 => ?_⟩
      · rw [h32] at hlow
        exact absurd hlow (by decide)
      · have h13 : c.toNat ≤ 13 := h13
        omega
    have hsign : (c == 45) = false ∧ (c == 43) = false := by
      constructor <;>
      · rw [beq_eq_false_iff_ne]
        intro h
        rw [h] at hlow
        exact absurd hlow (by decide)
    have hdigits : digits (c :: r) = k := by rw [← hput, digits_putNat]
    rw [stoul]
    simp only [List.dropWhile_cons, hspace, List.head?_cons, Option.some_beq_some, hsign, Bool.or_false,
      List.takeWhile_cons, hc, List.isEmpty_cons, hdigits, Bool.false_eq_true, if_false, if_true]
    rw [if_neg (by omega)]

end Pimid.TraceFile
