import Pimid.Mpi.Mem

/-!
# What a call changes and what it leaves alone

`Keeps` is the frame of an operation: which bytes of one buffer it may change,
everything else being as before. `Holds` says which bytes are already the ones
that are wanted. Together they determine a memory.

`forRange` is the source's `for` loop over local copies; `copyBlocks` is the
loop that moves blocks from one buffer to another.
-/

namespace Pimid.Mpi

/-- `M` is `m` with buffer `b` changed at most where `A` allows, and its length
and every other buffer kept. -/
structure Keeps (b : BufId) (A : Nat → Prop) (m M : Mem) : Prop where
  other : ∀ b', b' ≠ b → M b' = m b'
  len : (M b).length = (m b).length
  out : ∀ x, ¬ A x → (M b)[x]? = (m b)[x]?

namespace Keeps

variable {b : BufId} {A : Nat → Prop} {m M M' : Mem}

theorem refl (b : BufId) (A : Nat → Prop) (m : Mem) : Keeps b A m m :=
  ⟨fun _ _ => rfl, rfl, fun _ _ => rfl⟩

theorem trans (h : Keeps b A m M) (h' : Keeps b A M M') : Keeps b A m M' :=
  ⟨fun b' hb => (h'.other b' hb).trans (h.other b' hb), h'.len.trans h.len,
    fun x hx => (h'.out x hx).trans (h.out x hx)⟩

theorem mono {A' : Nat → Prop} (h : Keeps b A m M) (hA : ∀ x, A x → A' x) : Keeps b A' m M :=
  ⟨h.other, h.len, fun x hx => h.out x fun ha => hx (hA x ha)⟩

theorem put {off : Nat} {d : Bytes} (hf : Fits (m b) off d.length)
    (hA : ∀ x, off ≤ x → x < off + d.length → A x) : Keeps b A m (m.put b off d) := by
  refine ⟨fun b' hb => Mem.put_ne hb, Mem.length_put hf, fun x hx => ?_⟩
  rw [Mem.getElem?_put hf, if_neg]
  exact fun h => hx (hA x h.1 h.2)

theorem length (h : Keeps b A m M) (b' : BufId) : (M b').length = (m b').length := by
  by_cases hb : b' = b
  · subst hb; exact h.len
  · rw [h.other b' hb]

theorem fits {b' : BufId} {off len : Nat} (h : Keeps b A m M) (hf : Fits (m b') off len) :
    Fits (M b') off len := by
  unfold Fits at *
  rw [h.length b']
  exact hf

theorem slice_eq {off len : Nat} (h : Keeps b A m M)
    (hA : ∀ x, off ≤ x → x < off + len → ¬ A x) : slice (M b) off len = slice (m b) off len := by
  apply List.ext_getElem?
  intro x
  rw [getElem?_slice, getElem?_slice]
  split
  · exact h.out _ (hA _ (by omega) (by omega))
  · rfl

end Keeps

/-- The same as the program that made the call sees it: scratch memory is not its
own, and only user buffers count. -/
structure UserKeeps (k : Nat) (A : Nat → Prop) (m M : Mem) : Prop where
  other : ∀ k', k' ≠ k → M (.user k') = m (.user k')
  len : (M (.user k)).length = (m (.user k)).length
  out : ∀ x, ¬ A x → (M (.user k))[x]? = (m (.user k))[x]?

namespace UserKeeps

variable {k : Nat} {A : Nat → Prop} {m M M' : Mem}

theorem of_eq (h : ∀ k, M (.user k) = m (.user k)) : UserKeeps k A m M :=
  ⟨fun k' _ => h k', by rw [h k], fun x _ => by rw [h k]⟩

theorem refl : UserKeeps k A m m := of_eq fun _ => rfl

theorem trans (h : UserKeeps k A m M) (h' : UserKeeps k A M M') : UserKeeps k A m M' :=
  ⟨fun b' hb => (h'.other b' hb).trans (h.other b' hb), h'.len.trans h.len,
    fun x hx => (h'.out x hx).trans (h.out x hx)⟩

theorem mono {A' : Nat → Prop} (h : UserKeeps k A m M) (hA : ∀ x, A x → A' x) :
    UserKeeps k A' m M :=
  ⟨h.other, h.len, fun x hx => h.out x fun ha => hx (hA x ha)⟩

theorem length (h : UserKeeps k A m M) (k' : Nat) : (M (.user k')).length = (m (.user k')).length := by
  by_cases hk : k' = k
  · subst hk; exact h.len
  · rw [h.other k' hk]

end UserKeeps

theorem Keeps.user {k : Nat} {A : Nat → Prop} {m M : Mem} (h : Keeps (.user k) A m M) :
    UserKeeps k A m M :=
  ⟨fun k' hk => h.other _ (by simpa using hk), h.len, h.out⟩

theorem Keeps.tmp {b : BufId} {k : Nat} {A A' : Nat → Prop} {m M : Mem} (h : Keeps b A m M)
    (hb : ∀ k, b ≠ .user k) : UserKeeps k A' m M :=
  .of_eq fun k => h.other _ (hb k).symm

/-! ## Bytes already in place -/

/-- `l` holds the bytes of `D` on `[lo, hi)`. -/
def Holds (D l : Bytes) (lo hi : Nat) : Prop := ∀ x, lo ≤ x → x < hi → l[x]? = D[x]?

/-- A stretch on which two buffers agree reads the same in both. -/
theorem Holds.slice_eq {D l : Bytes} {lo hi o n : Nat} (h : Holds D l lo hi)
    (hin : n = 0 ∨ lo ≤ o ∧ o + n ≤ hi) : slice l o n = slice D o n := by
  apply List.ext_getElem?
  intro x
  rw [getElem?_slice, getElem?_slice]
  split
  · exact h _ (by omega) (by omega)
  · rfl

theorem Holds.join {D l : Bytes} {lo mid hi : Nat} (h : Holds D l lo mid) (h' : Holds D l mid hi) :
    Holds D l lo hi := by
  intro x hlo hhi
  rcases Nat.lt_or_ge x mid with hx | hx
  · exact h x hlo hx
  · exact h' x hx hhi

/-- Buffers that read the same at a stretch hold the same bytes there. -/
theorem holds_of_slice {D l : Bytes} {off len : Nat} (h : slice l off len = slice D off len) :
    Holds D l off (off + len) := by
  intro x hlo hhi
  have := congrArg (·[x - off]?) h
  simp only [getElem?_slice] at this
  rw [if_pos (by omega), if_pos (by omega), show off + (x - off) = x by omega] at this
  exact this

theorem holds_of_blocks {D l : Bytes} {n blk : Nat}
    (h : ∀ j, j < n → slice l (j * blk) blk = slice D (j * blk) blk) : Holds D l 0 (n * blk) := by
  induction n with
  | zero =>
    intro x _ hx
    omega
  | succ n ih =>
    rw [Nat.add_mul, Nat.one_mul]
    exact (ih fun j hj => h j (by omega)).join (holds_of_slice (h n (by omega)))

section

variable {D : Bytes} {m : Mem} {b : BufId} {off len : Nat}

theorem getElem?_put_slice (hf : Fits (m b) off len) (hD : Fits D off len) (x : Nat) :
    (m.put b off (slice D off len) b)[x]?
      = if off ≤ x ∧ x < off + len then D[x]? else (m b)[x]? := by
  have hlen := length_slice hD
  rw [Mem.getElem?_put (by rw [hlen]; exact hf), hlen]
  split
  · next h =>
    rw [getElem?_slice, if_pos (by omega)]
    congr 1
    omega
  · rfl

theorem holds_put (hf : Fits (m b) off len) (hD : Fits D off len) :
    Holds D (m.put b off (slice D off len) b) off (off + len) := by
  intro x hlo hhi
  rw [getElem?_put_slice hf hD, if_pos ⟨hlo, hhi⟩]

theorem Holds.put {lo hi : Nat} (h : Holds D (m b) lo hi) (hf : Fits (m b) off len)
    (hD : Fits D off len) : Holds D (m.put b off (slice D off len) b) lo hi := by
  intro x hlo hhi
  rw [getElem?_put_slice hf hD]
  split
  · rfl
  · exact h x hlo hhi

theorem keeps_put_slice {A : Nat → Prop} (hf : Fits (m b) off len) (hD : Fits D off len)
    (hA : ∀ x, off ≤ x → x < off + len → A x) :
    Keeps b A m (m.put b off (slice D off len)) := by
  apply Keeps.put
  · rw [length_slice hD]
    exact hf
  · rw [length_slice hD]
    exact hA

theorem slice_put_self {d : Bytes} {o : Nat} (hf : Fits (m b) o d.length) :
    slice (m.put b o d b) o d.length = d := by
  apply List.ext_getElem?
  intro x
  rw [getElem?_slice]
  split
  · rw [Mem.getElem?_put hf, if_pos (by omega)]
    congr 1
    omega
  · rw [List.getElem?_eq_none (by omega)]

end

/-! ## Local copy loops -/

/-- `for (j = lo; j < n; j++) f(j)`; a fault in the body stops the loop. -/
def forRange (f : Nat → Mem → Option Mem) (n j : Nat) (m : Mem) : Option Mem :=
  if j < n then (f j m).bind (forRange f n (j + 1)) else some m
termination_by n - j

theorem forRange_spec {f : Nat → Mem → Option Mem} {n : Nat} (I : Nat → Mem → Prop)
    (step : ∀ j m, j < n → I j m → ∃ m', f j m = some m' ∧ I (j + 1) m') {lo : Nat} (hlo : lo ≤ n)
    {m : Mem} (h : I lo m) : ∃ m', forRange f n lo m = some m' ∧ I n m' := by
  induction hk : n - lo generalizing lo m with
  | zero =>
    obtain rfl : lo = n := by omega
    exact ⟨m, by rw [forRange, if_neg (by omega)], h⟩
  | succ k ih =>
    obtain ⟨m', hm', h'⟩ := step lo m (by omega) h
    rw [forRange, if_pos (by omega), hm']
    exact ih (by omega) h' (by omega)

/-- Copy, for every `j` in `[lo, n)` that `c` selects, `len j` bytes from `src + soff j`
to `dst + doff j`. -/
def copyBlocks (c : Nat → Bool) (dst : BufId) (doff : Nat → Nat) (src : BufId) (soff len : Nat → Nat)
    (n lo : Nat) (m : Mem) : Option Mem :=
  forRange (fun j m => if c j then m.copy dst (doff j) src (soff j) (len j) else some m) n lo m

/-- The selected blocks arrive, and nothing else changes. -/
theorem copyBlocks_spec (c : Nat → Bool) (dst : BufId) (doff : Nat → Nat) (src : BufId)
    (soff len : Nat → Nat) (n lo : Nat) (m : Mem) (hne : src ≠ dst) (hlo : lo ≤ n)
    (hs : ∀ j, lo ≤ j → j < n → c j = true → Fits (m src) (soff j) (len j))
    (hd : ∀ j, lo ≤ j → j < n → c j = true → Fits (m dst) (doff j) (len j))
    (hap : ∀ i j, lo ≤ i → i < j → j < n → c i = true → c j = true →
      Apart (doff i) (len i) (doff j) (len j)) :
    ∃ M, copyBlocks c dst doff src soff len n lo m = some M ∧
      Keeps dst (fun x => ∃ j, lo ≤ j ∧ j < n ∧ c j = true ∧ doff j ≤ x ∧ x < doff j + len j) m M ∧
      ∀ j, lo ≤ j → j < n → c j = true →
        slice (M dst) (doff j) (len j) = slice (m src) (soff j) (len j) := by
  obtain ⟨M, hM, -, hk, hb⟩ := forRange_spec
    (f := fun j m => if c j then m.copy dst (doff j) src (soff j) (len j) else some m) (n := n)
    (fun k M => lo ≤ k ∧
      Keeps dst (fun x => ∃ j, lo ≤ j ∧ j < n ∧ c j = true ∧ doff j ≤ x ∧ x < doff j + len j) m M ∧
      ∀ j, lo ≤ j → j < k → c j = true →
        slice (M dst) (doff j) (len j) = slice (m src) (soff j) (len j))
    (by
      rintro k M hk ⟨hlk, hK, hB⟩
      by_cases hc : c k = true
      · have hfs : Fits (M src) (soff k) (len k) := by rw [hK.other src hne]; exact hs k hlk hk hc
        have hfd : Fits (M dst) (doff k) (len k) := hK.fits (hd k hlk hk hc)
        have hl := length_slice hfs
        refine ⟨_, by simp only [hc, if_true]; exact Mem.copy_eq hfs hfd, by omega, ?_, ?_⟩
        · refine hK.trans (Keeps.put (by rw [hl]; exact hfd) ?_)
          intro x h₁ h₂
          rw [hl] at h₂
          exact ⟨k, hlk, hk, hc, h₁, h₂⟩
        · intro j hj hjk hcj
          rw [hK.other src hne]
          rcases Nat.lt_or_ge j k with hlt | hge
          · rw [Mem.put_self, slice_splice_disjoint (by rw [← hK.other src hne, hl]; exact hfd)]
            · exact hB j hj hlt hcj
            · rw [← hK.other src hne, hl]
              exact hap j k hj hlt hk hcj hc
          · obtain rfl : j = k := by omega
            have := slice_put_self (m := M) (b := dst) (o := doff j)
              (d := slice (M src) (soff j) (len j)) (by rw [hl]; exact hfd)
            rw [hl] at this
            rwa [hK.other src hne] at this
      · refine ⟨M, by simp only [if_neg hc], by omega, hK, fun j hj hjk hcj => ?_⟩
        rcases Nat.lt_or_ge j k with hlt | hge
        · exact hB j hj hlt hcj
        · obtain rfl : j = k := by omega
          exact absurd hcj hc)
    hlo (m := m) ⟨Nat.le_refl lo, .refl .., fun j h₁ h₂ => by omega⟩
  exact ⟨M, hM, hk, hb⟩

end Pimid.Mpi
