import Pimid.Net.Prog

/-!
# Synchronous rounds

By `Steps.settles` one completed interleaving decides a network, so it is enough
to exhibit the most convenient one. Here that is the *lockstep* schedule: the
network advances in rounds, and between two rounds nothing is in flight.

`Reach p q L` says that processes `p`, started with all channels empty, can
advance to `q` with all channels empty again, having logged `L` on the way. It
composes (`Reach.trans`), goes under a continuation (`Reach.bind`), and has one
rule per kind of round: logging (`Reach.emits`) and one matched exchange in
which every process sends at most one message and then receives at most one
(`Reach.exchange`). `Reach.settles` turns a lockstep run to the end into a
statement about every interleaving.
-/

namespace Pimid.Net

open Prog
open Function (update update_eq_self update_idem update_self)

variable {ι M E α β : Type} [DecidableEq ι]

/-- Processes `p` with nothing in flight. -/
def quiet (p : ι → Prog ι M E α) (lg : ι → List E) : Config ι M E α :=
  ⟨p, fun _ _ => [], lg⟩

/-- `p` can advance to `q`, all channels empty before and after, logging `L`. -/
def Reach (p q : ι → Prog ι M E α) (L : ι → List E) : Prop :=
  ∀ lg, ∃ n, Steps n (quiet p lg) (quiet q fun i => lg i ++ L i)

theorem Reach.refl (p : ι → Prog ι M E α) : Reach p p fun _ => [] := by
  intro lg
  refine ⟨0, ?_⟩
  simp only [List.append_nil]
  exact .refl _

theorem Reach.trans {p q r : ι → Prog ι M E α} {L L' : ι → List E}
    (h : Reach p q L) (h' : Reach q r L') : Reach p r fun i => L i ++ L' i := by
  intro lg
  obtain ⟨n, hn⟩ := h lg
  obtain ⟨m, hm⟩ := h' fun i => lg i ++ L i
  refine ⟨n + m, ?_⟩
  simp only [← List.append_assoc]
  exact hn.trans hm

/-! ## Going under a continuation -/

/-- Append a continuation to every process of a configuration. -/
def Config.andThen (c : Config ι M E α) (k : ι → α → Prog ι M E β) : Config ι M E β :=
  ⟨fun i => c.prog i >>= k i, c.chan, c.log⟩

theorem stepAt_andThen {i : ι} {c c' : Config ι M E α} (k : ι → α → Prog ι M E β)
    (h : stepAt i c = some c') : stepAt i (c.andThen k) = some (c'.andThen k) := by
  have hupd : ∀ q : Prog ι M E α, (fun j => update c.prog i q j >>= k j)
      = update (fun j => c.prog j >>= k j) i (q >>= k i) := by
    intro q
    funext j
    by_cases hj : j = i
    · subst hj; simp
    · simp [hj]
  unfold stepAt at h
  cases hi : c.prog i with
  | ret x => simp [hi] at h
  | fail => simp [hi] at h
  | emit e q =>
    simp only [hi, Option.some.injEq] at h
    subst h
    simp [stepAt, Config.andThen, hi, hupd]
  | send d m q =>
    simp only [hi, Option.some.injEq] at h
    subst h
    simp [stepAt, Config.andThen, hi, hupd]
  | recv s q =>
    simp only [hi] at h
    cases hq : c.chan s i with
    | nil => simp [hq] at h
    | cons m ms =>
      simp only [hq, Option.some.injEq] at h
      subst h
      simp [stepAt, Config.andThen, hi, hq, hupd]

theorem Steps.andThen {n : Nat} {c c' : Config ι M E α} (k : ι → α → Prog ι M E β)
    (h : Steps n c c') : Steps n (c.andThen k) (c'.andThen k) := by
  induction h with
  | refl c => exact .refl _
  | head hs _ ih =>
    obtain ⟨i, hi⟩ := hs
    exact .head ⟨i, stepAt_andThen k hi⟩ ih

theorem Reach.bind {p q : ι → Prog ι M E α} {L : ι → List E} (h : Reach p q L)
    (k : ι → α → Prog ι M E β) :
    Reach (fun i => p i >>= k i) (fun i => q i >>= k i) L := by
  intro lg
  obtain ⟨n, hn⟩ := h lg
  exact ⟨n, hn.andThen k⟩

/-! ## A logging round -/

theorem steps_emits (i : ι) (ch : ι → ι → List M) (k : Prog ι M E α) :
    ∀ (es : List E) (p : ι → Prog ι M E α) (lg : ι → List E), p i = emits es k →
      Steps es.length ⟨p, ch, lg⟩
        ⟨update p i k, ch, update lg i (lg i ++ es)⟩ := by
  intro es
  induction es with
  | nil =>
    intro p lg hp
    have hp' : p i = k := hp
    rw [← hp', update_eq_self, List.append_nil, update_eq_self]
    exact .refl _
  | cons e es ih =>
    intro p lg hp
    have hp' : p i = emit e (emits es k) := hp
    have hstep : stepAt i ⟨p, ch, lg⟩ = some ⟨update p i (emits es k), ch,
        update lg i (lg i ++ [e])⟩ := by
      simp [stepAt, hp']
    have hrest := ih (update p i (emits es k)) (update lg i (lg i ++ [e]))
      (update_self ..)
    simp only [update_idem, update_self, List.append_assoc,
      List.singleton_append] at hrest
    exact .head ⟨i, hstep⟩ hrest

theorem Reach.emits {rs : List ι} (hnd : rs.Nodup) (L : ι → List E)
    (hrs : ∀ i, i ∉ rs → L i = []) (q : ι → Prog ι M E α) :
    Reach (fun i => emits (L i) (q i)) q L := by
  intro lg
  -- after the processes in `done` have logged
  suffices h : ∀ (rest : List ι) (done : ι → Bool), rest.Nodup → (∀ i ∈ rest, done i = false) →
      ∃ n, Steps n
        (⟨fun i => if done i then q i else Prog.emits (L i) (q i), fun _ _ => [],
          fun i => if done i then lg i ++ L i else lg i⟩ : Config ι M E α)
        ⟨fun i => if done i || rest.contains i then q i else Prog.emits (L i) (q i), fun _ _ => [],
          fun i => if done i || rest.contains i then lg i ++ L i else lg i⟩ by
    obtain ⟨n, hn⟩ := h rs (fun _ => false) hnd (fun _ _ => rfl)
    refine ⟨n, ?_⟩
    have hp : (fun i => if (false || rs.contains i) then q i else Prog.emits (L i) (q i)) = q := by
      funext i
      by_cases hi : i ∈ rs
      · simp [hi]
      · simp [hi, hrs i hi, Prog.emits]
    have hl : (fun i => if (false || rs.contains i) then lg i ++ L i else lg i)
        = fun i => lg i ++ L i := by
      funext i
      by_cases hi : i ∈ rs
      · simp [hi]
      · simp [hi, hrs i hi]
    rw [hp, hl] at hn
    exact hn
  intro rest
  induction rest with
  | nil =>
    intro done _ _
    refine ⟨0, ?_⟩
    simp only [List.contains_nil, Bool.or_false]
    exact .refl _
  | cons j rest ih =>
    intro done hnd hdone
    obtain ⟨hj, hnd⟩ := List.nodup_cons.mp hnd
    have hjf : done j = false := hdone j (List.mem_cons_self ..)
    obtain ⟨n, hn⟩ := ih (fun i => done i || i == j) hnd (by
      intro i hi
      have hij : i ≠ j := fun h => hj (h ▸ hi)
      simp [hdone i (List.mem_cons_of_mem _ hi), hij])
    have hone := steps_emits j (fun _ _ => ([] : List M)) (q j) (L j)
      (fun i => if done i then q i else Prog.emits (L i) (q i))
      (fun i => if done i then lg i ++ L i else lg i) (by simp [hjf])
    refine ⟨(L j).length + n, hone.trans ?_⟩
    have hp : update (fun i => if done i then q i else Prog.emits (L i) (q i)) j (q j)
        = fun i => if (done i || i == j) then q i else Prog.emits (L i) (q i) := by
      funext i
      by_cases hij : i = j
      · subst hij; simp
      · simp [hij]
    have hl : update (fun i => if done i then lg i ++ L i else lg i) j
          ((if done j then lg j ++ L j else lg j) ++ L j)
        = fun i => if (done i || i == j) then lg i ++ L i else lg i := by
      funext i
      by_cases hij : i = j
      · subst hij; simp [hjf]
      · simp [hij]
    have hset : ∀ i, (done i || (j :: rest).contains i) = ((done i || i == j) || rest.contains i) := by
      intro i
      rw [List.contains_cons, Bool.or_assoc]
    simp only [hset]
    rw [hp, hl]
    exact hn

/-! ## An exchange round -/

/-- The part of an outgoing message that lands on the channel to `d`. -/
def outbox (tx : Option (ι × M)) (d : ι) : List M :=
  match tx with
  | none => []
  | some (d', m) => if d' = d then [m] else []

/-- What a process waiting on `rx` finds when every process has sent. -/
def inbox (tx : ι → Option (ι × M)) (rx : Option ι) : Option M :=
  match rx with
  | none => none
  | some s => (tx s).map Prod.snd

/-- The sending half: the processes of `rest` put their message on its channel. -/
theorem steps_sends (tx : ι → Option (ι × M)) (q : ι → Prog ι M E α) (lg : ι → List E) :
    ∀ (rest : List ι) (sent : ι → Bool), rest.Nodup → (∀ i ∈ rest, sent i = false) →
      ∃ n, Steps n
        ⟨fun i => if sent i then q i else sends (tx i) (q i),
          fun s d => if sent s then outbox (tx s) d else [], lg⟩
        ⟨fun i => if sent i || rest.contains i then q i else sends (tx i) (q i),
          fun s d => if sent s || rest.contains s then outbox (tx s) d else [], lg⟩ := by
  intro rest
  induction rest with
  | nil =>
    intro sent _ _
    refine ⟨0, ?_⟩
    simp only [List.contains_nil, Bool.or_false]
    exact .refl _
  | cons j rest ih =>
    intro sent hnd hsent
    obtain ⟨hj, hnd⟩ := List.nodup_cons.mp hnd
    have hjf : sent j = false := hsent j (List.mem_cons_self ..)
    obtain ⟨n, hn⟩ := ih (fun i => sent i || i == j) hnd (by
      intro i hi
      have hij : i ≠ j := fun h => hj (h ▸ hi)
      simp [hsent i (List.mem_cons_of_mem _ hi), hij])
    have hset : ∀ i, (sent i || (j :: rest).contains i) = ((sent i || i == j) || rest.contains i) := by
      intro i
      rw [List.contains_cons, Bool.or_assoc]
    simp only [hset]
    cases htx : tx j with
    | none =>
      refine ⟨n, ?_⟩
      have hp : (fun i => if sent i then q i else sends (tx i) (q i))
          = fun i => if (sent i || i == j) then q i else sends (tx i) (q i) := by
        funext i
        by_cases hij : i = j
        · subst hij; simp [hjf, htx, sends]
        · simp [hij]
      have hc : (fun s d => if sent s then outbox (tx s) d else [])
          = fun s d => if (sent s || s == j) then outbox (tx s) d else [] := by
        funext s d
        by_cases hsj : s = j
        · subst hsj; simp [hjf, htx, outbox]
        · simp [hsj]
      rw [hp, hc]
      exact hn
    | some dm =>
      obtain ⟨d, m⟩ := dm
      have hstep : stepAt j ⟨fun i => if sent i then q i else sends (tx i) (q i),
            fun s d => if sent s then outbox (tx s) d else [], lg⟩
          = some ⟨fun i => if (sent i || i == j) then q i else sends (tx i) (q i),
              fun s d => if (sent s || s == j) then outbox (tx s) d else [], lg⟩ := by
        simp only [stepAt, hjf, Bool.false_eq_true, if_false, htx, sends, List.nil_append,
          Option.some.injEq, Config.mk.injEq, and_true]
        constructor
        · funext i
          by_cases hij : i = j
          · subst hij; simp
          · simp [hij]
        · funext s b
          unfold setChan
          by_cases hsj : s = j
          · subst hsj
            by_cases hb : b = d
            · subst hb; simp [htx, outbox]
            · simp [htx, outbox, hb, hjf, Ne.symm hb]
          · simp [hsj]
      exact ⟨1 + n, (Steps.single hstep).trans hn⟩

/-- The receiving half: the processes of `rest` take their message off. -/
theorem steps_recvs (tx : ι → Option (ι × M)) (rx : ι → Option ι)
    (h₁ : ∀ s d m, tx s = some (d, m) → rx d = some s)
    (h₂ : ∀ d s, rx d = some s → ∃ m, tx s = some (d, m))
    (k : ι → Option M → Prog ι M E α) (lg : ι → List E) :
    ∀ (rest : List ι) (got : ι → Bool), rest.Nodup → (∀ i ∈ rest, got i = false) →
      ∃ n, Steps n
        ⟨fun i => if got i then k i (inbox tx (rx i)) else recvs (rx i) (k i),
          fun s d => if got d then [] else outbox (tx s) d, lg⟩
        ⟨fun i => if got i || rest.contains i then k i (inbox tx (rx i)) else recvs (rx i) (k i),
          fun s d => if got d || rest.contains d then [] else outbox (tx s) d, lg⟩ := by
  intro rest
  induction rest with
  | nil =>
    intro got _ _
    refine ⟨0, ?_⟩
    simp only [List.contains_nil, Bool.or_false]
    exact .refl _
  | cons j rest ih =>
    intro got hnd hgot
    obtain ⟨hj, hnd⟩ := List.nodup_cons.mp hnd
    have hjf : got j = false := hgot j (List.mem_cons_self ..)
    obtain ⟨n, hn⟩ := ih (fun i => got i || i == j) hnd (by
      intro i hi
      have hij : i ≠ j := fun h => hj (h ▸ hi)
      simp [hgot i (List.mem_cons_of_mem _ hi), hij])
    have hset : ∀ i, (got i || (j :: rest).contains i) = ((got i || i == j) || rest.contains i) := by
      intro i
      rw [List.contains_cons, Bool.or_assoc]
    simp only [hset]
    -- only the peer `j` waits for has anything on a channel into `j`
    have hout : ∀ s, rx j ≠ some s → outbox (tx s) j = [] := by
      intro s hs
      unfold outbox
      split
      · rfl
      · next d m hm =>
        rw [if_neg]
        rintro rfl
        exact hs (h₁ s d m hm)
    cases hrx : rx j with
    | none =>
      refine ⟨n, ?_⟩
      have hp : (fun i => if got i then k i (inbox tx (rx i)) else recvs (rx i) (k i))
          = fun i => if (got i || i == j) then k i (inbox tx (rx i)) else recvs (rx i) (k i) := by
        funext i
        by_cases hij : i = j
        · subst hij; simp [hjf, hrx, recvs, inbox]
        · simp [hij]
      have hc : (fun s d => if got d then [] else outbox (tx s) d)
          = fun s d => if (got d || d == j) then [] else outbox (tx s) d := by
        funext s d
        by_cases hdj : d = j
        · subst hdj; simp [hout s (by rw [hrx]; simp)]
        · simp [hdj]
      rw [hp, hc]
      exact hn
    | some s =>
      obtain ⟨m, hm⟩ := h₂ j s hrx
      have hstep : stepAt j ⟨fun i => if got i then k i (inbox tx (rx i)) else recvs (rx i) (k i),
            fun s d => if got d then [] else outbox (tx s) d, lg⟩
          = some ⟨fun i => if (got i || i == j) then k i (inbox tx (rx i)) else recvs (rx i) (k i),
              fun s d => if (got d || d == j) then [] else outbox (tx s) d, lg⟩ := by
        simp only [stepAt, hjf, Bool.false_eq_true, if_false, hrx, recvs, hm, outbox, if_true,
          Option.some.injEq, Config.mk.injEq, and_true]
        constructor
        · funext i
          by_cases hij : i = j
          · subst hij; simp [inbox, hrx, hm]
          · simp [hij]
        · funext a b
          unfold setChan
          by_cases hbj : b = j
          · subst hbj
            by_cases ha : a = s
            · simp [ha]
            · have hne : rx b ≠ some a := by rw [hrx]; simpa using Ne.symm ha
              have hempty := hout a hne
              unfold outbox at hempty
              simp [ha, hempty]
          · simp [hbj]
      exact ⟨1 + n, (Steps.single hstep).trans hn⟩

/-- **One exchange round.** Every process sends at most one message and then
receives at most one; the sends and receives match. -/
theorem Reach.exchange {rs : List ι} (hnd : rs.Nodup) (tx : ι → Option (ι × M)) (rx : ι → Option ι)
    (hrs : ∀ i, i ∉ rs → tx i = none ∧ rx i = none)
    (h₁ : ∀ s d m, tx s = some (d, m) → rx d = some s)
    (h₂ : ∀ d s, rx d = some s → ∃ m, tx s = some (d, m))
    (k : ι → Option M → Prog ι M E α) :
    Reach (fun i => sends (tx i) (recvs (rx i) (k i))) (fun i => k i (inbox tx (rx i)))
      fun _ => [] := by
  intro lg
  obtain ⟨n, hn⟩ := steps_sends tx (fun i => recvs (rx i) (k i)) lg rs (fun _ => false) hnd
    (fun _ _ => rfl)
  obtain ⟨m, hm⟩ := steps_recvs tx rx h₁ h₂ k lg rs (fun _ => false) hnd (fun _ _ => rfl)
  refine ⟨n + m, ?_⟩
  simp only [Bool.false_eq_true, if_false, Bool.false_or, List.append_nil] at hn hm ⊢
  have hmid : (⟨fun i => if rs.contains i then recvs (rx i) (k i)
          else sends (tx i) (recvs (rx i) (k i)),
        fun s d => if rs.contains s then outbox (tx s) d else [], lg⟩ : Config ι M E α)
      = ⟨fun i => recvs (rx i) (k i), fun s d => outbox (tx s) d, lg⟩ := by
    congr 1
    · funext i
      by_cases hi : i ∈ rs
      · simp [hi]
      · simp [hi, (hrs i hi).1, sends]
    · funext s d
      by_cases hs : s ∈ rs
      · simp [hs]
      · simp [hs, (hrs s hs).1, outbox]
  have hend : (⟨fun i => if rs.contains i then k i (inbox tx (rx i)) else recvs (rx i) (k i),
        fun s d => if rs.contains d then [] else outbox (tx s) d, lg⟩ : Config ι M E α)
      = quiet (fun i => k i (inbox tx (rx i))) lg := by
    unfold quiet
    congr 1
    · funext i
      by_cases hi : i ∈ rs
      · simp [hi]
      · simp [hi, (hrs i hi).2, recvs, inbox]
    · funext s d
      by_cases hd : d ∈ rs
      · simp [hd]
      · simp only [List.contains_eq_mem, hd, decide_false, Bool.false_eq_true, if_false]
        unfold outbox
        split
        · rfl
        · next d' m hm =>
          rw [if_neg]
          rintro rfl
          have := h₁ s d' m hm
          rw [(hrs d' hd).2] at this
          cases this
  rw [hmid] at hn
  rw [hend] at hm
  exact hn.trans hm

/-! ## From the lockstep schedule to every interleaving -/

theorem terminal_ret (f : ι → α) (lg : ι → List E) :
    Terminal (quiet (fun i => (ret (f i) : Prog ι M E α)) lg) := by
  rintro c' ⟨i, hi⟩
  simp [stepAt, quiet] at hi

/-- A lockstep run to the end decides every interleaving. -/
theorem Reach.settles {p : ι → Prog ι M E α} {f : ι → α} {L : ι → List E}
    (h : Reach p (fun i => ret (f i)) L) :
    Settles (quiet p fun _ => []) (quiet (fun i => ret (f i)) L) := by
  obtain ⟨n, hn⟩ := h fun _ => []
  simp only [List.nil_append] at hn
  exact hn.settles (terminal_ret f L)

end Pimid.Net
