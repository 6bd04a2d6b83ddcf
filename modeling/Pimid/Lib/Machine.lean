import Mathlib.Logic.Basic

/-!
# Machines and their runs

A machine takes one atomic step per action and logs events. An action that is not
enabled has no step. A run is any sequence of enabled actions; what is proved of
every run holds for every interleaving of whoever takes the actions.
-/

namespace Pimid

structure Machine (S A E : Type) where
  init : S
  step : S → A → Option (S × List E)

namespace Machine

variable {S A E : Type} {M : Machine S A E}

/-- `M` can get to state `s` with log `l`. -/
inductive Run (M : Machine S A E) : S → List E → Prop where
  | start : Run M M.init []
  | step {s l a s' es} (run : Run M s l) (h : M.step s a = some (s', es)) : Run M s' (l ++ es)

theorem Run.inv {I : S → List E → Prop} (start : I M.init [])
    (step : ∀ {s l a s' es}, I s l → M.step s a = some (s', es) → I s' (l ++ es)) {s : S} {l : List E}
    (h : M.Run s l) : I s l := by
  induction h with
  | start => exact start
  | step _ hs ih => exact step ih hs

/-- The state and the log after a list of actions, if each is enabled in its turn. -/
def exec (M : Machine S A E) : S → List A → Option (S × List E)
  | s, [] => some (s, [])
  | s, a :: as =>
    match M.step s a with
    | none => none
    | some (s', es) => (exec M s' as).map fun p => (p.1, es ++ p.2)

theorem Run.exec {s s' : S} {l es : List E} {as : List A} (h : M.Run s l) (he : M.exec s as = some (s', es)) :
    M.Run s' (l ++ es) := by
  induction as generalizing s l es with
  | nil =>
    simp only [Machine.exec, Option.some.injEq, Prod.mk.injEq] at he
    obtain ⟨rfl, rfl⟩ := he
    rwa [List.append_nil]
  | cons a as ih =>
    simp only [Machine.exec] at he
    split at he
    next => cases he
    next s₁ es₁ hs =>
      rw [Option.map_eq_some_iff] at he
      obtain ⟨p, hp, heq⟩ := he
      simp only [Prod.mk.injEq] at heq
      obtain ⟨rfl, rfl⟩ := heq
      rw [← List.append_assoc]
      exact ih (h.step hs) hp

end Machine

/-! ## Machines whose every action is enabled -/

section Total

variable {S A : Type} {step : S → A → S} {P Q : S → A → Prop}

/-- `P` holds before every action of a run. -/
def Along (step : S → A → S) (P : S → A → Prop) : S → List A → Prop
  | _, [] => True
  | s, a :: as => P s a ∧ Along step P (step s a) as

instance Along.decidable [∀ s a, Decidable (P s a)] : (s : S) → (as : List A) → Decidable (Along step P s as)
  | _, [] => inferInstanceAs (Decidable True)
  | s, a :: as =>
    have := Along.decidable (step s a) as
    inferInstanceAs (Decidable (P s a ∧ Along step P (step s a) as))

theorem along_append {s : S} {as bs : List A} :
    Along step P s (as ++ bs) ↔ Along step P s as ∧ Along step P (as.foldl step s) bs := by
  induction as generalizing s with
  | nil => simp [Along]
  | cons a as ih => simp [Along, ih, and_assoc]

theorem Along.and {s : S} {as : List A} (hp : Along step P s as) (hq : Along step Q s as) :
    Along step (fun s a => P s a ∧ Q s a) s as := by
  induction as generalizing s with
  | nil => trivial
  | cons a as ih => exact ⟨⟨hp.1, hq.1⟩, ih hp.2 hq.2⟩

theorem along_of_forall (h : ∀ s a, P s a) (s : S) (as : List A) : Along step P s as := by
  induction as generalizing s with
  | nil => trivial
  | cons a as ih => exact ⟨h s a, ih _⟩

theorem along_iff_split {s : S} {as : List A} :
    Along step P s as ↔ ∀ pre a post, as = pre ++ a :: post → P (pre.foldl step s) a := by
  constructor
  · rintro h pre a post rfl
    exact (along_append.mp h).2.1
  · intro h
    induction as generalizing s with
    | nil => trivial
    | cons a as ih =>
      refine ⟨h [] a as rfl, ih fun pre b post he => ?_⟩
      exact h (a :: pre) b post (by rw [he]; rfl)

/-- What a step keeps where `P` holds, a run keeps along which `P` holds. The invariant
may speak of the actions taken. -/
theorem Along.inv {I : S → List A → Prop} (hstep : ∀ {s as a}, I s as → P s a → I (step s a) (as ++ [a]))
    {s : S} {as : List A} (hs : I s as) {bs : List A} (hp : Along step P s bs) : I (bs.foldl step s) (as ++ bs) := by
  induction bs generalizing s as with
  | nil => simpa using hs
  | cons b bs ih =>
    have := ih (hstep hs hp.1) hp.2
    rwa [List.append_assoc, List.singleton_append] at this

/-- The same for what a state keeps whatever was done. -/
theorem Along.keeps {I : S → Prop} (hstep : ∀ s a, I s → P s a → I (step s a)) {s : S} (hs : I s) {bs : List A}
    (hp : Along step P s bs) : I (bs.foldl step s) := by
  induction bs generalizing s with
  | nil => exact hs
  | cons b bs ih => exact ih (hstep s b hs hp.1) hp.2

end Total

end Pimid
