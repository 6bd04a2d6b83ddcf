import Pimid.Mpi.Mailbox

/-!
# The representation of a mailbox

The same queue is written down four times over: the window of the ring with its tombstones, the order of the
arena and its map of used slots, and the marks of the extension. Sends, receives and evictions in any order
keep these in step, and two scans that have no bound of their own end because of it.
-/

namespace Pimid.Mpi.Transport

/-- A critical section of the mailbox: a send into it, a receive from it, or an eviction. -/
inductive MbOp where
  | send (rank : Nat) (o : Outgoing)
  | recv (want : Int)
  | evict

def MbOp.run (nranks : Nat) (b : Inbox) : MbOp → Except Stop Inbox
  | .send rank o => sendChunk nranks rank b o
  | .recv want => (recvThread nranks b want).map Prod.snd
  | .evict => ringEvictHead nranks b

/-- An eviction finds a chunk in the ring. -/
def MbOp.Enabled (b : Inbox) : MbOp → Prop
  | .evict => 0 < b.mb.count
  | _ => True

instance (b : Inbox) : DecidablePred (MbOp.Enabled b) := fun op => by cases op <;> unfold MbOp.Enabled <;> infer_instance

/-- A run of critical sections; it ends where one is not enabled or does not return. -/
def runMb (nranks : Nat) (b : Inbox) : List MbOp → Option Inbox
  | [] => some b
  | op :: ops =>
    if op.Enabled b then
      match op.run nranks b with
      | .ok b' => runMb nranks b' ops
      | .error _ => none
    else none

/-- The four encodings agree: no tombstone outside the ring's window or at its head, the arena's order lists its used
slots once each, and the extension counts its untaken entries. -/
structure Rep (nranks : Nat) (b : Inbox) : Prop where
  window : ∀ i, b.mb.consumed i = true → i ∈ window b.mb.head b.mb.count
  head : 0 < b.mb.count → b.mb.consumed b.mb.head = false
  used : ((Finset.range (stageCap nranks)).filter fun i => b.stage.used i = true).card = b.stage.n
  order : ((List.range b.stage.n).map b.stage.order).Nodup
  listed : ∀ i, i ∈ (List.range b.stage.n).map b.stage.order ↔ i < stageCap nranks ∧ b.stage.used i = true
  ext : b.ext.n = b.ext.untaken.length

/-- What follows for the next critical section: the arena takes a chunk only while the extension is empty, what an
eviction stages was not received, and no scan runs off its store. -/
structure Safe (nranks : Nat) (b : Inbox) : Prop where
  arena : ∀ s b', stagePush nranks b s = .ok b' → b'.stage.n ≠ b.stage.n → b.ext.untaken = []
  live : 0 < b.mb.count → b.mb.head ∈ b.mb.live
  scans : ∀ op : MbOp, op.Enabled b → op.run nranks b ≠ .error .fault

section

variable {nranks : Nat} {b : Inbox}

theorem Inbox.Ok.listed (hok : b.Ok nranks) (i : Nat) :
    i ∈ (List.range b.stage.n).map b.stage.order ↔ i < stageCap nranks ∧ b.stage.used i = true := by
  rw [List.mem_map, hok.stage.used]
  constructor
  · rintro ⟨k, hk, rfl⟩
    have hlt := List.mem_range.mp hk
    exact ⟨hok.stage.lt k hlt, k, hlt, rfl⟩
  · rintro ⟨-, k, hk, rfl⟩
    exact ⟨k, List.mem_range.mpr hk, rfl⟩

theorem Inbox.Ok.order (hok : b.Ok nranks) : ((List.range b.stage.n).map b.stage.order).Nodup := by
  refine List.Nodup.map_on (fun j hj k hk heq => ?_) List.nodup_range
  exact hok.stage.inj j k (List.mem_range.mp hj) (List.mem_range.mp hk) heq

theorem Inbox.Ok.rep (hok : b.Ok nranks) : Rep nranks b where
  window := hok.mb.marks
  head := hok.mb.first
  used := by
    have hsame : (Finset.range (stageCap nranks)).filter (fun i => b.stage.used i = true) =
        ((List.range b.stage.n).map b.stage.order).toFinset := by
      ext i
      rw [Finset.mem_filter, Finset.mem_range, List.mem_toFinset, hok.listed]
    rw [hsame, List.toFinset_card_of_nodup hok.order, List.length_map, List.length_range]
  order := hok.order
  listed := hok.listed
  ext := hok.ext.n

/-- A critical section returns with the four encodings in step, or the extension is full. -/
theorem Inbox.Ok.op (hok : b.Ok nranks) {op : MbOp} (hen : op.Enabled b) :
    op.run nranks b = .error .full ∨ ∃ b', op.run nranks b = .ok b' ∧ b'.Ok nranks := by
  cases op with
  | send rank o =>
    rcases sendChunk_spec hok rank o with hfull | ⟨b', hb', hok', -⟩
    · exact Or.inl hfull
    · exact Or.inr ⟨b', hb', hok'⟩
  | recv want =>
    change (recvThread nranks b want).map Prod.snd = _ ∨
      ∃ b', (recvThread nranks b want).map Prod.snd = .ok b' ∧ b'.Ok nranks
    rcases recvThread_spec hok want with ⟨hwait | ⟨b', hb', hok', -⟩, -⟩ | ⟨pre, p, post, b', hb', -, -, -, hok', -⟩
    · exact Or.inl (by rw [hwait]; rfl)
    · exact Or.inr ⟨b', by rw [hb']; rfl, hok'⟩
    · exact Or.inr ⟨b', by rw [hb']; rfl, hok'⟩
  | evict =>
    rcases ringEvictHead_spec hok hen with hfull | ⟨b', hb', hok', -⟩
    · exact Or.inl hfull
    · exact Or.inr ⟨b', hb', hok'⟩

theorem Inbox.Ok.safe (hok : b.Ok nranks) : Safe nranks b where
  arena := by
    intro s b' hpush hgrew
    unfold stagePush at hpush
    split at hpush
    next =>
      -- the extension took it
      unfold stageExtPush at hpush
      split at hpush
      next =>
        obtain rfl := Except.ok.inj hpush
        exact absurd rfl hgrew
      next => cases hpush
    next hempty =>
      have hn : b.ext.n = 0 := by omega
      exact List.eq_nil_of_length_eq_zero (hok.ext.n ▸ hn)
  live := by
    intro hpos
    refine List.mem_filter.mpr ⟨?_, by rw [hok.mb.first hpos]; rfl⟩
    rw [hok.mb.window_eq hpos]
    exact List.mem_cons_self
  scans := by
    intro op hen hfault
    rcases hok.op hen with hfull | ⟨b', hb', -⟩
    · rw [hfull] at hfault
      cases hfault
    · rw [hb'] at hfault
      cases hfault

/-- Every critical section of a run leaves the inbox in order. -/
theorem Inbox.Ok.runMb (hok : b.Ok nranks) {ops : List MbOp} {b' : Inbox} (hrun : runMb nranks b ops = some b') :
    b'.Ok nranks := by
  induction ops generalizing b with
  | nil =>
    obtain rfl := Option.some.inj hrun
    exact hok
  | cons op ops ih =>
    unfold Transport.runMb at hrun
    split at hrun
    next hen =>
      rcases hok.op hen with hfull | ⟨b₁, hb₁, hok₁⟩
      · rw [hfull] at hrun
        cases hrun
      · rw [hb₁] at hrun
        exact ih hok₁ hrun
    next => cases hrun

end

/-- **In every state a mailbox can get to** its four encodings agree, and the next critical section is safe. -/
theorem runMb_rep (nranks : Nat) (ops : List MbOp) (b : Inbox) (hrun : runMb nranks .init ops = some b) :
    Rep nranks b ∧ Safe nranks b := by
  have hok : b.Ok nranks := Inbox.ok_init.runMb hrun
  exact ⟨hok.rep, hok.safe⟩

/-- A chunk without data. -/
def emptyChunk : Outgoing := ⟨7, [], 0, 1, 0, 0, 0, 0, Nat.zero_le _⟩

theorem runMb_rep_two : ∃ b, runMb 2 .init [.send 0 emptyChunk, .send 1 emptyChunk, .recv 1, .evict] = some b ∧
    b.stage.n = 1 ∧ Rep 2 b ∧ Safe 2 b := by
  obtain ⟨b, hrun⟩ : ∃ b, runMb 2 .init [.send 0 emptyChunk, .send 1 emptyChunk, .recv 1, .evict] = some b := ⟨_, rfl⟩
  refine ⟨b, hrun, ?_, runMb_rep 2 _ b hrun⟩
  obtain rfl := Option.some.inj (hrun.symm.trans rfl)
  rfl

end Pimid.Mpi.Transport
