import Mathlib.Logic.Function.Basic

/-!
# Processes over FIFO channels

A network of sequential processes that share nothing but point-to-point FIFO
channels. A process is a `Prog`: a finite-depth tree of the four things it can
do next — log an event, send a message, wait for the next message of one named
peer, stop (normally, or by a memory fault that never continues). Sends never
block; a receive blocks while its channel is empty.

`stepAt i` executes the next action of process `i`; `Step` lets any process go,
so a `Steps` run is one interleaving. `Settles c t` is the property every
result about a network is stated with: no interleaving from `c` runs forever,
none stops anywhere but in `t`, and `t` stays reachable from every state on the
way.

Nothing here knows what the messages are.
-/

namespace Pimid.Net

open Function (update update_comm update_of_ne)

/-- A sequential process returning an `α`: peers are named by `ι`, messages are
`M`, log entries are `E`. -/
inductive Prog (ι M E α : Type) : Type where
  | ret (a : α)
  | fail
  | emit (e : E) (k : Prog ι M E α)
  | send (dst : ι) (msg : M) (k : Prog ι M E α)
  | recv (src : ι) (k : M → Prog ι M E α)

namespace Prog

variable {ι M E α β γ : Type}

/-- Run `p`, then continue with its result. -/
def bind : Prog ι M E α → (α → Prog ι M E β) → Prog ι M E β
  | ret a, f => f a
  | fail, _ => fail
  | emit e k, f => emit e (bind k f)
  | send d m k, f => send d m (bind k f)
  | recv s k, f => recv s fun m => bind (k m) f

instance : Monad (Prog ι M E) where
  pure := ret
  bind := bind

@[simp] theorem pure_eq (a : α) : (pure a : Prog ι M E α) = ret a := rfl

@[simp] theorem ret_bind (a : α) (f : α → Prog ι M E β) : (ret a >>= f) = f a := rfl

@[simp] theorem fail_bind (f : α → Prog ι M E β) : ((fail : Prog ι M E α) >>= f) = fail := rfl

@[simp] theorem emit_bind (e : E) (k : Prog ι M E α) (f : α → Prog ι M E β) :
    (emit e k >>= f) = emit e (k >>= f) := rfl

@[simp] theorem send_bind (d : ι) (m : M) (k : Prog ι M E α) (f : α → Prog ι M E β) :
    (send d m k >>= f) = send d m (k >>= f) := rfl

@[simp] theorem recv_bind (s : ι) (k : M → Prog ι M E α) (f : α → Prog ι M E β) :
    (recv s k >>= f) = recv s fun m => k m >>= f := rfl

theorem bind_assoc (p : Prog ι M E α) (f : α → Prog ι M E β) (g : β → Prog ι M E γ) :
    (p >>= f >>= g) = p >>= fun a => f a >>= g := by
  induction p with
  | ret a => rfl
  | fail => rfl
  | emit e k ih => simp only [emit_bind, ih]
  | send d m k ih => simp only [send_bind, ih]
  | recv s k ih => simp only [recv_bind, ih]

/-- Log the entries of `es` in order, then go on as `k`. -/
def emits : List E → Prog ι M E α → Prog ι M E α
  | [], k => k
  | e :: es, k => emit e (emits es k)

/-- Send `tx` if there is one, then go on as `k`. -/
def sends (tx : Option (ι × M)) (k : Prog ι M E α) : Prog ι M E α :=
  match tx with
  | none => k
  | some (d, m) => send d m k

/-- Receive from `rx` if there is one, and go on with what came in. -/
def recvs (rx : Option ι) (k : Option M → Prog ι M E α) : Prog ι M E α :=
  match rx with
  | none => k none
  | some s => recv s fun m => k (some m)

end Prog

/-! ## Networks and their steps -/

/-- A state of the network: what each process has left to do, the messages in
flight on each channel (`chan s d`, oldest first), and what each has logged. -/
@[ext]
structure Config (ι M E α : Type) where
  prog : ι → Prog ι M E α
  chan : ι → ι → List M
  log : ι → List E

variable {ι M E α β : Type} [DecidableEq ι]

/-- Replace the content of channel `s → d`. -/
def setChan (ch : ι → ι → List M) (s d : ι) (q : List M) : ι → ι → List M :=
  fun a b => if a = s ∧ b = d then q else ch a b

@[simp] theorem setChan_self (ch : ι → ι → List M) (s d : ι) (q : List M) :
    setChan ch s d q s d = q := by
  simp [setChan]

theorem setChan_ne {ch : ι → ι → List M} {s d a b : ι} {q : List M} (h : ¬(a = s ∧ b = d)) :
    setChan ch s d q a b = ch a b := by
  simp [setChan, h]

theorem setChan_comm {ch : ι → ι → List M} {s d s' d' : ι} {q q' : List M}
    (h : ¬(s = s' ∧ d = d')) :
    setChan (setChan ch s d q) s' d' q' = setChan (setChan ch s' d' q') s d q := by
  funext a b
  unfold setChan
  by_cases h1 : a = s ∧ b = d
  · by_cases h2 : a = s' ∧ b = d'
    · exact absurd ⟨h1.1.symm.trans h2.1, h1.2.symm.trans h2.2⟩ h
    · rw [if_neg h2, if_pos h1, if_pos h1]
  · rw [if_neg h1]
    by_cases h2 : a = s' ∧ b = d'
    · rw [if_pos h2, if_neg h1]
    · rw [if_neg h2, if_neg h1]

/-- Execute the next action of process `i`; `none` if it has stopped or waits on
an empty channel. -/
def stepAt (i : ι) (c : Config ι M E α) : Option (Config ι M E α) :=
  match c.prog i with
  | .ret _ => none
  | .fail => none
  | .emit e k =>
    some { c with
      prog := update c.prog i k
      log := update c.log i (c.log i ++ [e]) }
  | .send d m k =>
    some { c with
      prog := update c.prog i k
      chan := setChan c.chan i d (c.chan i d ++ [m]) }
  | .recv s k =>
    match c.chan s i with
    | [] => none
    | m :: ms =>
      some { c with
        prog := update c.prog i (k m)
        chan := setChan c.chan s i ms }

/-- Some process takes a step. -/
def Step (c c' : Config ι M E α) : Prop := ∃ i, stepAt i c = some c'

/-- No process can take a step. -/
def Terminal (c : Config ι M E α) : Prop := ∀ c', ¬ Step c c'

/-- An interleaving of exactly `n` steps. -/
inductive Steps : Nat → Config ι M E α → Config ι M E α → Prop where
  | refl (c) : Steps 0 c c
  | head {n a b c} (h : Step a b) (t : Steps n b c) : Steps (n + 1) a c

theorem Steps.trans {n m : Nat} {a b c : Config ι M E α}
    (h : Steps n a b) (h' : Steps m b c) : Steps (n + m) a c := by
  induction h with
  | refl c => rw [Nat.zero_add]; exact h'
  | head s _ ih => rw [Nat.add_right_comm]; exact .head s (ih h')

theorem Steps.single {i : ι} {a b : Config ι M E α} (h : stepAt i a = some b) : Steps 1 a b :=
  .head ⟨i, h⟩ (.refl b)

/-- Every interleaving from `c` is finite, stops only in `t`, and can always
still get to `t`. -/
structure Settles (c t : Config ι M E α) : Prop where
  bounded : ∃ n, ∀ m b, Steps m c b → m ≤ n
  progress : ∀ m b, Steps m c b → b = t ∨ ∃ b', Step b b'
  reaches : ∀ m b, Steps m c b → ∃ k, Steps k b t
  terminal : Terminal t

/-! ## Confluence -/

/-- **The diamond**: steps of two different processes commute. A send and a
receive that meet on one channel touch its two ends. -/
theorem stepAt_diamond {i j : ι} (hij : i ≠ j) {c a b : Config ι M E α}
    (ha : stepAt i c = some a) (hb : stepAt j c = some b) :
    ∃ d, stepAt j a = some d ∧ stepAt i b = some d := by
  have hji : j ≠ i := hij.symm
  unfold stepAt at ha hb
  cases hi : c.prog i with
  | ret x => simp [hi] at ha
  | fail => simp [hi] at ha
  | emit e k =>
    simp only [hi, Option.some.injEq] at ha
    subst ha
    cases hj : c.prog j with
    | ret x => simp [hj] at hb
    | fail => simp [hj] at hb
    | emit e' k' =>
      simp only [hj, Option.some.injEq] at hb
      subst hb
      simp [stepAt, hi, hj, hij, hji, update_comm hij]
    | send d m k' =>
      simp only [hj, Option.some.injEq] at hb
      subst hb
      simp [stepAt, hi, hj, hij, hji, update_comm hij]
    | recv s k' =>
      simp only [hj] at hb
      cases hq : c.chan s j with
      | nil => simp [hq] at hb
      | cons m ms =>
        simp only [hq, Option.some.injEq] at hb
        subst hb
        simp [stepAt, hi, hj, hq, hij, hji, update_comm hij]
  | send d m k =>
    simp only [hi, Option.some.injEq] at ha
    subst ha
    cases hj : c.prog j with
    | ret x => simp [hj] at hb
    | fail => simp [hj] at hb
    | emit e' k' =>
      simp only [hj, Option.some.injEq] at hb
      subst hb
      simp [stepAt, hi, hj, hij, hji, update_comm hij]
    | send d' m' k' =>
      simp only [hj, Option.some.injEq] at hb
      subst hb
      have hne : ¬(i = j ∧ d = d') := fun h => hij h.1
      simp [stepAt, hi, hj, hij, hji, update_comm hij, setChan_comm hne, setChan]
    | recv s k' =>
      simp only [hj] at hb
      cases hq : c.chan s j with
      | nil => simp [hq] at hb
      | cons x xs =>
        simp only [hq, Option.some.injEq] at hb
        subst hb
        by_cases hsd : i = s ∧ d = j
        · -- the message goes in at the tail, `x` comes out at the head
          obtain ⟨rfl, rfl⟩ := hsd
          refine ⟨⟨update (update c.prog i k) d (k' x),
            setChan c.chan i d (xs ++ [m]), c.log⟩, ?_, ?_⟩
          · simp only [stepAt, update_of_ne hji, hj, setChan_self, hq,
              List.cons_append, Option.some.injEq, Config.mk.injEq, true_and, and_true]
            funext a b
            unfold setChan
            split <;> rfl
          · simp only [stepAt, update_of_ne hij, hi, setChan_self,
              Option.some.injEq, Config.mk.injEq, update_comm hij, true_and, and_true]
            funext a b
            unfold setChan
            split <;> rfl
        · have hsd' : ¬(s = i ∧ j = d) := fun h => hsd ⟨h.1.symm, h.2.symm⟩
          refine ⟨⟨update (update c.prog i k) j (k' x),
            setChan (setChan c.chan i d (c.chan i d ++ [m])) s j xs, c.log⟩, ?_, ?_⟩
          · simp only [stepAt, update_of_ne hji, hj, setChan_ne hsd', hq]
          · simp only [stepAt, update_of_ne hij, hi, setChan_ne hsd,
              Option.some.injEq, Config.mk.injEq, update_comm hij, true_and, and_true]
            exact (setChan_comm hsd).symm
  | recv s k =>
    simp only [hi] at ha
    cases hp : c.chan s i with
    | nil => simp [hp] at ha
    | cons x xs =>
      simp only [hp, Option.some.injEq] at ha
      subst ha
      cases hj : c.prog j with
      | ret y => simp [hj] at hb
      | fail => simp [hj] at hb
      | emit e' k' =>
        simp only [hj, Option.some.injEq] at hb
        subst hb
        simp [stepAt, hi, hj, hp, hij, hji, update_comm hij]
      | send d m k' =>
        simp only [hj, Option.some.injEq] at hb
        subst hb
        by_cases hsd : j = s ∧ d = i
        · obtain ⟨rfl, rfl⟩ := hsd
          refine ⟨⟨update (update c.prog d (k x)) j k',
            setChan c.chan j d (xs ++ [m]), c.log⟩, ?_, ?_⟩
          · simp only [stepAt, update_of_ne hji, hj, setChan_self,
              Option.some.injEq, Config.mk.injEq, true_and, and_true]
            funext a b
            unfold setChan
            split <;> rfl
          · simp only [stepAt, update_of_ne hij, hi, setChan_self, hp,
              List.cons_append, Option.some.injEq, Config.mk.injEq, update_comm hij,
              true_and, and_true]
            funext a b
            unfold setChan
            split <;> rfl
        · have hsd' : ¬(s = j ∧ i = d) := fun h => hsd ⟨h.1.symm, h.2.symm⟩
          refine ⟨⟨update (update c.prog i (k x)) j k',
            setChan (setChan c.chan s i xs) j d (c.chan j d ++ [m]), c.log⟩, ?_, ?_⟩
          · simp only [stepAt, update_of_ne hji, hj, setChan_ne hsd]
          · simp only [stepAt, update_of_ne hij, hi, setChan_ne hsd', hp,
              Option.some.injEq, Config.mk.injEq, update_comm hij, true_and, and_true]
            exact (setChan_comm hsd').symm
      | recv s' k' =>
        simp only [hj] at hb
        cases hq : c.chan s' j with
        | nil => simp [hq] at hb
        | cons y ys =>
          simp only [hq, Option.some.injEq] at hb
          subst hb
          have hne : ¬(s = s' ∧ i = j) := fun h => hij h.2
          have hne' : ¬(s' = s ∧ j = i) := fun h => hji h.2
          simp [stepAt, hi, hj, hp, hq, hij, hji, update_comm hij, setChan_comm hne,
            setChan_ne hne, setChan_ne hne']

/-- A step taken off a run that ends in a terminal state costs one of its steps:
the rest of the run can still be completed. -/
theorem Steps.strip {n : Nat} {a t : Config ι M E α} (h : Steps n a t) (ht : Terminal t) :
    ∀ {b}, Step a b → ∃ k, n = k + 1 ∧ Steps k b t := by
  induction h with
  | refl c => intro b hb; exact absurd hb (ht b)
  | @head n a a₁ t hs hr ih =>
    rintro b ⟨j, hj⟩
    obtain ⟨i, hi⟩ := hs
    by_cases hij : i = j
    · subst hij
      rw [hi] at hj
      obtain rfl := Option.some.inj hj
      exact ⟨n, rfl, hr⟩
    · obtain ⟨d, hd₁, hd₂⟩ := stepAt_diamond hij hi hj
      obtain ⟨k, rfl, hk⟩ := ih ht ⟨j, hd₁⟩
      exact ⟨k + 1, rfl, .head ⟨i, hd₂⟩ hk⟩

/-- Every run is a prefix of a run of the same total length. -/
theorem Steps.complete {n m : Nat} {a b t : Config ι M E α} (h : Steps n a t) (ht : Terminal t)
    (h' : Steps m a b) : m ≤ n ∧ Steps (n - m) b t := by
  induction h' generalizing n with
  | refl c => exact ⟨Nat.zero_le n, h⟩
  | head hs _ ih =>
    obtain ⟨k, rfl, hk⟩ := h.strip ht hs
    obtain ⟨hle, hrest⟩ := ih hk
    exact ⟨Nat.succ_le_succ hle, by rw [Nat.add_sub_add_right]; exact hrest⟩

/-- **Determinacy**: one interleaving that ends in a terminal state decides all
of them. -/
theorem Steps.settles {n : Nat} {a t : Config ι M E α} (h : Steps n a t) (ht : Terminal t) :
    Settles a t where
  bounded := ⟨n, fun _ _ hb => (h.complete ht hb).1⟩
  progress := by
    intro m b hb
    have hrest := (h.complete ht hb).2
    generalize n - m = k at hrest
    cases hrest with
    | refl => exact .inl rfl
    | head hs _ => exact .inr ⟨_, hs⟩
  reaches := fun m b hb => ⟨n - m, (h.complete ht hb).2⟩
  terminal := ht

end Pimid.Net
