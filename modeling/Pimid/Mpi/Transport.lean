import Pimid.Lib.Arrivals
import Pimid.Lib.Machine
import Pimid.Mpi.Mailbox

/-!
# The thread-mode transport

All ranks' inboxes, with every critical section of `Mailbox` as a step: a send by any
rank to any rank, and a receive by the owner. A receive that has to wait is a step that
takes nothing; being woken is another receive.

`Served` says what the inboxes do for the ranks: the arrivals of an inbox are numbered,
each is either still held or was taken once, and those of one source were taken in the
order in which they came.
-/

namespace Pimid.Mpi.Transport

open Function (update update_of_ne update_self)

inductive Act where
  | send (rank dest : Nat) (o : Outgoing)
  | recv (rank : Nat) (want : Int)

/-- A chunk was put into the inbox of `dest`, or rank `rank` took one out of its own. -/
inductive Event where
  | enqueued (dest : Nat) (p : Packet)
  | took (rank : Nat) (p : Packet)

def step (N : Nat) (s : Nat → Inbox) : Act → Option ((Nat → Inbox) × List Event)
  | .send rank dest o =>
    if rank < N ∧ dest < N then
      match sendChunk N rank (s dest) o with
      | .ok b => some (update s dest b, [.enqueued dest (o.packet rank)])
      | .error _ => none
    else none
  | .recv rank want =>
    if rank < N then
      match recvThread N (s rank) want with
      | .ok (none, b) => some (update s rank b, [])
      | .ok (some p, b) => some (update s rank b, [.took rank p])
      | .error _ => none
    else none

/-- The transport of `N` ranks. The run ends where the process aborts. -/
def machine (N : Nat) : Machine (Nat → Inbox) Act Event := ⟨fun _ => .init, step N⟩

/-- The chunks that came for rank `d`, in order. -/
def arrivals (d : Nat) (l : List Event) : List Packet :=
  l.filterMap fun
    | .enqueued d' p => if d' = d then some p else none
    | .took .. => none

/-- The chunks rank `d` took, in order. -/
def taken (d : Nat) (l : List Event) : List Packet :=
  l.filterMap fun
    | .took d' p => if d' = d then some p else none
    | .enqueued .. => none

section

variable {N d : Nat} {l : List Event} {p : Packet}

theorem arrivals_enqueued (d' : Nat) :
    arrivals d' (l ++ [.enqueued d p]) = if d' = d then arrivals d' l ++ [p] else arrivals d' l := by
  unfold arrivals
  rw [List.filterMap_append]
  by_cases h : d' = d
  · simp [h]
  · simp [h, Ne.symm h]

theorem arrivals_took (d' : Nat) : arrivals d' (l ++ [.took d p]) = arrivals d' l := by
  unfold arrivals
  rw [List.filterMap_append]
  simp

theorem taken_enqueued (d' : Nat) : taken d' (l ++ [.enqueued d p]) = taken d' l := by
  unfold taken
  rw [List.filterMap_append]
  simp

theorem taken_took (d' : Nat) :
    taken d' (l ++ [.took d p]) = if d' = d then taken d' l ++ [p] else taken d' l := by
  unfold taken
  rw [List.filterMap_append]
  by_cases h : d' = d
  · simp [h]
  · simp [h, Ne.symm h]

/-! ## The invariant -/

/-- The inbox of rank `d` serves its arrivals. -/
structure Serves (N d : Nat) (b : Inbox) (l : List Event) (ts hs : List (Packet × Nat)) : Prop where
  ok : b.Ok N
  served : Served (fun p : Packet => p.header.src) (arrivals d l) ts hs
  past : ts.map Prod.fst = taken d l
  now : hs.map Prod.fst = b.queue

variable {b b' : Inbox} {ts hs : List (Packet × Nat)}

theorem serves_init : Serves N d .init [] [] [] := ⟨Inbox.ok_init, .nil, rfl, rfl⟩

theorem Serves.send (h : Serves N d b l ts hs) (hok : b'.Ok N) (hq : b'.queue = b.queue ++ [p]) :
    Serves N d b' (l ++ [.enqueued d p]) ts (hs ++ [(p, (arrivals d l).length)]) := by
  refine ⟨hok, ?_, ?_, ?_⟩
  · rw [arrivals_enqueued, if_pos rfl]
    exact h.served.arrive p
  · rw [taken_enqueued]
    exact h.past
  · rw [hq, List.map_append, h.now]
    rfl

/-- A chunk that a receive skips is from another source than the one it takes. -/
theorem src_ne {want : Int} {p p' : Packet} (h : p.header.matches want = true)
    (h' : p'.header.matches want = false) : p'.header.src ≠ p.header.src := by
  unfold Header.matches at h h'
  simp only [Bool.or_eq_true, decide_eq_true_eq] at h
  simp only [Bool.or_eq_false_iff, decide_eq_false_iff_not] at h'
  omega

/-- What a queue of held chunks looks like where a receive takes one. -/
theorem Serves.split (h : Serves N d b l ts hs) {pre post : List Packet} (hq : b.queue = pre ++ p :: post) :
    ∃ hpre i hpost, hs = hpre ++ (p, i) :: hpost ∧ hpre.map Prod.fst = pre ∧ hpost.map Prod.fst = post := by
  obtain ⟨hpre, rest, rfl, hp, hrest⟩ := List.map_eq_append_iff.mp (h.now.trans hq)
  obtain ⟨x, hpost, rfl, rfl, hpost'⟩ := List.map_eq_cons_iff.mp hrest
  exact ⟨hpre, x.2, hpost, rfl, hp, hpost'⟩

theorem Serves.recv (h : Serves N d b l ts hs) {want : Int} {pre post : List Packet}
    (hq : b.queue = pre ++ p :: post) (hpre : ∀ p ∈ pre, p.header.matches want = false)
    (hm : p.header.matches want = true) (hok : b'.Ok N) (hq' : b'.queue = pre ++ post) :
    ∃ ts hs, Serves N d b' (l ++ [.took d p]) ts hs := by
  obtain ⟨xs, i, ys, rfl, hxs, hys⟩ := h.split hq
  refine ⟨ts ++ [(p, i)], xs ++ ys, hok, ?_, ?_, ?_⟩
  · rw [arrivals_took]
    refine h.served.take fun y hy => src_ne hm (hpre y.1 ?_)
    rw [← hxs]
    exact List.mem_map_of_mem hy
  · rw [taken_took, if_pos rfl, List.map_append, h.past]
    rfl
  · rw [hq', List.map_append, hxs, hys]

theorem Serves.other {d' : Nat} (h : Serves N d b l ts hs) (hne : d ≠ d') (e : Event)
    (he : e = .enqueued d' p ∨ e = .took d' p) : Serves N d b (l ++ [e]) ts hs := by
  refine ⟨h.ok, ?_, ?_, h.now⟩
  · rcases he with rfl | rfl
    · rw [arrivals_enqueued, if_neg hne]
      exact h.served
    · rw [arrivals_took]
      exact h.served
  · rcases he with rfl | rfl
    · rw [taken_enqueued]
      exact h.past
    · rw [taken_took, if_neg hne]
      exact h.past

end

theorem step_serves {N : Nat} {s s' : Nat → Inbox} {l es : List Event} {a : Act}
    (h : ∀ d, ∃ ts hs, Serves N d (s d) l ts hs) (hs : step N s a = some (s', es)) (d : Nat) :
    ∃ ts hs, Serves N d (s' d) (l ++ es) ts hs := by
  obtain ⟨ts, hs₀, hd⟩ := h d
  cases a with
  | send rank dest o =>
    obtain ⟨ts', hs', hdest⟩ := h dest
    rw [step] at hs
    split at hs
    · rcases sendChunk_spec hdest.ok rank o with hfull | ⟨b, hb, hok, hq⟩
      · rw [hfull] at hs
        cases hs
      · rw [hb] at hs
        obtain ⟨rfl, rfl⟩ := Prod.mk.inj (Option.some.inj hs)
        by_cases hdd : d = dest
        · subst hdd
          rw [update_self]
          exact ⟨_, _, hdest.send hok hq⟩
        · rw [update_of_ne hdd]
          exact ⟨_, _, hd.other hdd _ (.inl rfl)⟩
    · cases hs
  | recv rank want =>
    obtain ⟨ts', hs', hrank⟩ := h rank
    rw [step] at hs
    split at hs
    · rcases recvThread_spec hrank.ok want with
        ⟨hfull | ⟨b, hb, hok, hq⟩, -⟩ | ⟨pre, p, post, b, hb, hq, hpre, hm, hok, hq'⟩
      · rw [hfull] at hs
        cases hs
      · rw [hb] at hs
        obtain ⟨rfl, rfl⟩ := Prod.mk.inj (Option.some.inj hs)
        rw [List.append_nil]
        by_cases hdd : d = rank
        · subst hdd
          rw [update_self]
          exact ⟨_, _, hok, hrank.served, hrank.past, hrank.now.trans hq.symm⟩
        · rw [update_of_ne hdd]
          exact ⟨_, _, hd⟩
      · rw [hb] at hs
        obtain ⟨rfl, rfl⟩ := Prod.mk.inj (Option.some.inj hs)
        by_cases hdd : d = rank
        · subst hdd
          rw [update_self]
          exact hrank.recv hq hpre hm hok hq'
        · rw [update_of_ne hdd]
          exact ⟨_, _, hd.other hdd _ (.inr rfl)⟩
    · cases hs

theorem exists_serves {N : Nat} {s : Nat → Inbox} {l : List Event} (h : (machine N).Run s l) (d : Nat) :
    ∃ ts hs, Serves N d (s d) l ts hs :=
  h.inv (I := fun s l => ∀ d, ∃ ts hs, Serves N d (s d) l ts hs) (fun _ => ⟨_, _, serves_init⟩)
    (fun hI hs => step_serves hI hs) d

/-- Per source, what was taken is a prefix of what came. -/
theorem Serves.in_order {N d : Nat} {b : Inbox} {l : List Event} {ts hs : List (Packet × Nat)}
    (h : Serves N d b l ts hs) (s : Int) :
    (taken d l).filter (fun p => p.header.src = s) <+: (arrivals d l).filter fun p => p.header.src = s := by
  refine ⟨(hs.filter fun x => x.1.header.src = s).map Prod.fst, ?_⟩
  have hfilter : ∀ xs : List (Packet × Nat), (xs.map Prod.fst).filter (fun p => p.header.src = s)
      = (xs.filter fun x => x.1.header.src = s).map Prod.fst := fun xs => by
    rw [List.filter_map]
    rfl
  have harr : (arrivals d l).zipIdx.map Prod.fst = arrivals d l := List.zipIdx_map_fst ..
  rw [← h.past, hfilter, ← List.map_append, h.served.fifo s, ← hfilter, harr]

/-- **The transport.** In every run of `N` ranks, and for every rank `d`: the chunks that
came for `d`, numbered as they came, are split into those `d` took and those it still
holds, each exactly once and unchanged; from every source `d` took a prefix of what came;
a receive takes the earliest held chunk that matches, which for any source is the earliest
of all, and waits only if none matches. Neither a send nor a receive ever faults. -/
theorem transport_run {N : Nat} {s : Nat → Inbox} {l : List Event} (h : (machine N).Run s l) {d : Nat}
    (hd : d < N) :
    ∃ ts hs : List (Packet × Nat),
      ts.map Prod.fst = taken d l ∧ hs.map Prod.fst = (s d).queue ∧
      (ts ++ hs).Perm (arrivals d l).zipIdx ∧ hs.Sublist (arrivals d l).zipIdx ∧
      (∀ src, (taken d l).filter (fun p => p.header.src = src)
        <+: (arrivals d l).filter fun p => p.header.src = src) ∧
      (∀ want p s' es, step N s (.recv d want) = some (s', es) → es = [.took d p] →
        ∃ pre i post, hs = pre ++ (p, i) :: post ∧ (∀ x ∈ pre, x.1.header.matches want = false) ∧
          p.header.matches want = true ∧ (want < 0 → pre = [])) ∧
      (∀ want, (∃ x ∈ hs, x.1.header.matches want = true) →
        ∃ s' p, step N s (.recv d want) = some (s', [.took d p])) ∧
      (∀ want, recvThread N (s d) want ≠ .error .fault) ∧
      ∀ rank o, sendChunk N rank (s d) o ≠ .error .fault := by
  obtain ⟨ts, hs, hI⟩ := exists_serves h d
  refine ⟨ts, hs, hI.past, hI.now, hI.served.once, hI.served.order, hI.in_order, fun want p s' es hstep hes => ?_,
    fun want hx => ?_, fun want hf => ?_, fun rank o hf => ?_⟩
  · rw [step, if_pos hd] at hstep
    rcases recvThread_spec hI.ok want with
      ⟨hfull | ⟨b, hb, -, -⟩, -⟩ | ⟨pre, p', post, b, hb, hq, hpre, hm, -, -⟩
    · rw [hfull] at hstep
      cases hstep
    · rw [hb] at hstep
      obtain ⟨-, rfl⟩ := Prod.mk.inj (Option.some.inj hstep)
      cases hes
    · rw [hb] at hstep
      obtain ⟨-, rfl⟩ := Prod.mk.inj (Option.some.inj hstep)
      obtain ⟨xs, i, ys, rfl, hxs, -⟩ := hI.split hq
      obtain rfl : p' = p := by simpa using hes
      have hnone : ∀ x ∈ xs, x.1.header.matches want = false := fun x hx =>
        hpre x.1 (hxs ▸ List.mem_map_of_mem hx)
      refine ⟨xs, i, ys, rfl, hnone, hm, fun hneg => List.eq_nil_iff_forall_not_mem.mpr fun x hx => ?_⟩
      -- a receive from any source skips nothing
      have := hnone x hx
      simp [Header.matches, hneg] at this
  · obtain ⟨x, hx, hxm⟩ := hx
    have hmem : x.1 ∈ (s d).queue := hI.now ▸ List.mem_map_of_mem hx
    rcases recvThread_spec hI.ok want with ⟨-, hnone⟩ | ⟨pre, p, post, b, hb, -⟩
    · rw [hnone x.1 hmem] at hxm
      cases hxm
    · exact ⟨_, p, by rw [step, if_pos hd, hb]⟩
  · rcases recvThread_spec hI.ok want with ⟨hfull | ⟨b, hb, -⟩, -⟩ | ⟨pre, p, post, b, hb, -⟩
    · rw [hfull] at hf
      cases hf
    · rw [hb] at hf
      cases hf
    · rw [hb] at hf
      cases hf
  · rcases sendChunk_spec hI.ok rank o with hfull | ⟨b, hb, -⟩
    · rw [hfull] at hf
      cases hf
    · rw [hb] at hf
      cases hf

theorem transport_run_two_ranks :
    ∃ ts hs : List (Packet × Nat), ts.map Prod.fst
        = [Outgoing.packet ⟨7, [1, 2], 0, 1, 0, 5, 0, 2, by decide⟩ 1] ∧
      (ts ++ hs).Perm [(Outgoing.packet ⟨7, [1, 2], 0, 1, 0, 5, 0, 2, by decide⟩ 1, 0)] := by
  obtain ⟨ts, hs, hts, -, hperm, -⟩ := transport_run (d := 0) (((Machine.Run.start (M := machine 2)).step
    (a := .send 1 0 ⟨7, [1, 2], 0, 1, 0, 5, 0, 2, by decide⟩) rfl).step (a := .recv 0 (-1)) rfl) (by decide)
  exact ⟨ts, hs, hts, hperm⟩

end Pimid.Mpi.Transport
