import Pimid.Mpi.Datatype
import Pimid.Mpi.Tree
import Mathlib.Tactic.Ring

/-!
# MPI_Bcast

Three algorithms, picked by size: a binomial tree for short messages; otherwise
a binomial *scatter*, which leaves each rank with its own piece of
`ss = ceil(n / P)` bytes, followed by an allgather of the pieces — recursive
doubling when `P` is a power of two and the message is not too long, a ring
otherwise.

The last pieces are short or empty. Both ends of every message decide on their
own whether it exists and how long it is: a parent from the bytes it holds, a
child from where its piece starts.
-/

namespace Pimid.Mpi

open Pimid.Net

def kBcastShortMsg : Nat := 12288
def kBcastLongMsg : Nat := 524288
def kBcastMinProcs : Nat := 8

/-! ## The code -/

/-- The sends of `bcast_binomial`, from `mask` down. -/
def bcastBinomialDown (P rank : Nat) (m : Mem) (buf : BufId) (nbytes root mask : Nat) :
    Rank Unit :=
  if mask > 0 then do
    if rel P root rank + mask < P then
      sendBytes P m buf 0 nbytes ((rank + mask) % P) 0
    bcastBinomialDown P rank m buf nbytes root (mask / 2)
  else .ret ()
termination_by mask

def bcastBinomial (P rank : Nat) (m : Mem) (buf : BufId) (nbytes root : Nat) : Rank Mem := do
  let mask := scanMask P (rel P root rank) 0
  let m ← if mask < P then do
      let (_, m) ← recvBytes P m buf 0 nbytes ((rank + P - mask) % P)
      .ret m
    else .ret m
  bcastBinomialDown P rank m buf nbytes root (mask / 2)
  .ret m

/-- The sends of `bcast_scatter`, from `mask` down, holding `curr` bytes. -/
def bcastScatterDown (P rank : Nat) (m : Mem) (buf : BufId) (ss root curr mask : Nat) :
    Rank Nat :=
  if mask > 0 then
    if rel P root rank + mask < P then do
      let keep := ss * mask
      if curr > keep then do
        sendBytes P m buf ((rel P root rank + mask) * ss) (curr - keep) ((rank + mask) % P) 0
        bcastScatterDown P rank m buf ss root keep (mask / 2)
      else bcastScatterDown P rank m buf ss root curr (mask / 2)
    else bcastScatterDown P rank m buf ss root curr (mask / 2)
  else .ret curr
termination_by mask

/-- Binomial scatter of `P` pieces of `ss` bytes. Returns how many bytes this rank
holds from the start of its own piece. -/
def bcastScatter (P rank : Nat) (m : Mem) (buf : BufId) (nbytes ss root : Nat) :
    Rank (Nat × Mem) := do
  let rel := rel P root rank
  let mask := scanMask P rel 0
  let (curr, m) ← if mask < P then
      if rel * ss < nbytes then
        recvBytes P m buf (rel * ss) (nbytes - rel * ss) ((rank + P - mask) % P)
      else .ret (0, m)
    else .ret (if rel = 0 then nbytes else 0, m)
  let curr ← bcastScatterDown P rank m buf ss root curr (mask / 2)
  .ret (curr, m)

/-- The allgather of `bcast_scatter_rd_allgather`, from `mask = 2 ^ i` on. -/
def bcastRdFrom (P rank : Nat) (buf : BufId) (nbytes ss root i curr : Nat) (m : Mem) : Rank Mem :=
  if 2 ^ i < P then do
    let rel := rel P root rank
    let rdst := rel ^^^ 2 ^ i
    let dst := (rdst + root) % P
    let soff := ((rel >>> i) <<< i) * ss
    let roff := ((rdst >>> i) <<< i) * ss
    let (got, m) ← xchgBytes P m buf (if soff < nbytes then soff else 0) curr dst
      buf (if roff < nbytes then roff else 0) (if roff < nbytes then nbytes - roff else 0) dst
    bcastRdFrom P rank buf nbytes ss root (i + 1) (curr + got) m
  else .ret m
termination_by P - i
decreasing_by
  have := Nat.lt_two_pow_self (n := i)
  omega

def bcastScatterRdAllgather (P rank : Nat) (m : Mem) (buf : BufId) (nbytes root : Nat) :
    Rank Mem := do
  let ss := (nbytes + P - 1) / P
  let (curr, m) ← bcastScatter P rank m buf nbytes ss root
  bcastRdFrom P rank buf nbytes ss root 0 curr m

/-- The ring of `bcast_scatter_ring_allgather`: step `i`, sending piece `j` and
receiving piece `jnext`. -/
def bcastRingFrom (P rank : Nat) (buf : BufId) (nbytes ss root i j jnext : Nat) (m : Mem) :
    Rank Mem :=
  if i < P then do
    let left := (P + rank - 1) % P
    let right := (rank + 1) % P
    let rj := rel P root j * ss
    let rjn := rel P root jnext * ss
    let rcount := if rj < nbytes then (if nbytes - rj < ss then nbytes - rj else ss) else 0
    let lcount := if rjn < nbytes then (if nbytes - rjn < ss then nbytes - rjn else ss) else 0
    let (_, m) ← xchgBytes P m buf (if rcount ≠ 0 then rj else 0) rcount right
      buf (if lcount ≠ 0 then rjn else 0) lcount left
    bcastRingFrom P rank buf nbytes ss root (i + 1) jnext ((P + jnext - 1) % P) m
  else .ret m
termination_by P - i

def bcastScatterRingAllgather (P rank : Nat) (m : Mem) (buf : BufId) (nbytes root : Nat) :
    Rank Mem := do
  let ss := (nbytes + P - 1) / P
  let (_, m) ← bcastScatter P rank m buf nbytes ss root
  bcastRingFrom P rank buf nbytes ss root 1 rank ((P + rank - 1) % P) m

def mpiBcast (P rank : Nat) (m : Mem) (buffer : BufId) (count datatype root : Nat) : Rank Mem :=
  if P ≤ 1 then .ret m
  else do
    let ext ← access (dtypeSize datatype)
    let nbytes := count * ext
    if nbytes < kBcastShortMsg ∨ P < kBcastMinProcs then bcastBinomial P rank m buffer nbytes root
    else if nbytes < kBcastLongMsg ∧ isPof2 P then
      bcastScatterRdAllgather P rank m buffer nbytes root
    else bcastScatterRingAllgather P rank m buffer nbytes root

/-! ## The binomial tree -/

/-- The memory of rank `r` after the broadcast: the root's first `n` bytes over its own. -/
def bcasted (m : Nat → Mem) (b : BufId) (n root r : Nat) : Mem :=
  (m r).put b 0 (slice (m root b) 0 n)

/-- A buffer that got every byte of the root's, and nothing else, is the broadcast one. -/
theorem eq_bcasted {m : Nat → Mem} {b : BufId} {n root r : Nat} {M : Mem}
    (hn : n ≤ (m r b).length) (hroot : n ≤ (m root b).length) (hk : Keeps b (· < n) (m r) M)
    (hh : Holds (m root b) (M b) 0 n) : M = bcasted m b n root r := by
  funext b'
  unfold bcasted
  by_cases hb : b' = b
  · subst hb
    apply List.ext_getElem?
    intro x
    rw [getElem?_put_slice (.of_le (by omega)) (.of_le (by omega))]
    split
    · exact hh x (by omega) (by omega)
    · exact hk.out x (by omega)
  · rw [hk.other b' hb, Mem.put_ne hb]

section

variable {P : Nat} {m : Nat → Mem} {b : BufId} {n root : Nat}

theorem bcasted_root (hn : n ≤ (m root b).length) : bcasted m b n root root = m root :=
  (eq_bcasted hn hn (.refl ..) fun _ _ _ => rfl).symm

theorem slice_bcasted {r : Nat} (hn : n ≤ (m r b).length) (hroot : n ≤ (m root b).length) :
    slice (bcasted m b n root r b) 0 n = slice (m root b) 0 n := by
  apply List.ext_getElem?
  intro x
  unfold bcasted
  rw [getElem?_slice, getElem?_slice]
  split
  · rw [getElem?_put_slice (.of_le (by omega)) (.of_le (by omega)), if_pos (by omega)]
  · rfl

theorem length_bcasted {r : Nat} (hn : n ≤ (m r b).length) (hroot : n ≤ (m root b).length)
    (b' : BufId) : (bcasted m b n root r b').length = (m r b').length :=
  Mem.length_put (by rw [length_slice (.of_le (by omega))]; exact .of_le (by omega))

theorem bcastBinomialDown_zero (P rank : Nat) (M : Mem) :
    bcastBinomialDown P rank M b n root (2 ^ 0 / 2) = .ret () := by
  rw [bcastBinomialDown]
  rfl

theorem bcastBinomialDown_succ (P rank : Nat) (M : Mem) (j : Nat) :
    bcastBinomialDown P rank M b n root (2 ^ (j + 1) / 2)
      = ((if rel P root rank + 2 ^ j < P then sendBytes P M b 0 n ((rank + 2 ^ j) % P) 0
          else .ret ()) >>= fun _ => bcastBinomialDown P rank M b n root (2 ^ j / 2)) := by
  rw [half_pow_succ, bcastBinomialDown, if_pos (Nat.two_pow_pos j)]
  split <;> rfl

/-- Where rank `r` is when the ranks of level `j` have the message: at its sends
from `2 ^ (j - 1)` down, or still at the start. -/
def binomialAt (P : Nat) (m : Nat → Mem) (b : BufId) (n root j r : Nat) : Rank Mem :=
  if rel P root r % 2 ^ j = 0 then
    bcastBinomialDown P r (bcasted m b n root r) b n root (2 ^ j / 2) >>= fun _ =>
      .ret (bcasted m b n root r)
  else bcastBinomial P r (m r) b n root

theorem binomialAt_step (hP : 2 ≤ P) (hroot : root < P) (hn : ∀ r, r < P → n ≤ (m r b).length)
    (j : Nat) : Together P (binomialAt P m b n root (j + 1)) (binomialAt P m b n root j) := by
  refine Together.deliver
    (m := fun r => if rel P root r % 2 ^ (j + 1) = 0 then bcasted m b n root r else m r)
    (fun r => rel P root r % 2 ^ (j + 1) = 0 ∧ rel P root r + 2 ^ j < P)
    (fun r => rel P root r % 2 ^ (j + 1) = 2 ^ j) hP
    (fun r => ⟨(r + 2 ^ j) % P, b, 0, n⟩) (fun r => ⟨(r + P - 2 ^ j) % P, b, 0, n⟩)
    (fun r x => bcastBinomialDown P r x.2 b n root (2 ^ j / 2) >>= fun _ => .ret x.2)
    ?_ ?_ ?_ ?_ ?_ ?_ ?_ ?_ ?_ ?_
  · rintro s hs ⟨h0, hlt⟩
    obtain ⟨hd, -, hbit, hback⟩ := child hroot hs h0 hlt
    exact ⟨hd, hbit, hback⟩
  · intro d hd h
    have hrel := rel_lt (P := P) root d (by omega)
    obtain ⟨hs, hsum, h0, hback⟩ := parent hroot hd h
    exact ⟨hs, ⟨h0, hsum.trans_lt hrel⟩, hback⟩
  · rintro r - ⟨h0, -⟩
    exact ne_of_level h0
  · rintro s hs ⟨h0, -⟩
    simp only [if_pos h0]
    exact .of_le (by rw [length_bcasted (hn s hs) (hn root hroot)]; have := hn s hs; omega)
  · intro d hd h
    simp only [if_neg fun h0 => ne_of_level h0 h]
    exact .of_le (by have := hn d hd; omega)
  · intro d _ _
    exact Nat.le_refl n
  · rintro s hs ⟨h0, hlt⟩
    simp only [binomialAt, if_pos h0, if_pos (low_of_succ h0).1, bcastBinomialDown_succ,
      if_pos hlt, Prog.bind_assoc]
  · intro d hd h
    obtain ⟨hlow, hbit⟩ := low_of_pow h
    have hrel := rel_lt (P := P) root d (by omega)
    have hne : ¬ rel P root d % 2 ^ (j + 1) = 0 := fun h0 => ne_of_level h0 h
    have hmask : 2 ^ j < P := by have := pow_le_of_testBit hbit; omega
    simp only [binomialAt, if_neg hne, bcastBinomial, scanMask_of_bit hrel hlow hbit (Nat.zero_le j),
      if_pos hmask, Prog.ret_bind]
  · intro d hd h
    obtain ⟨hlow, hbit⟩ := low_of_pow h
    obtain ⟨hs, -, h0, -⟩ := parent hroot hd h
    have hne : ¬ rel P root d % 2 ^ (j + 1) = 0 := fun h0 => ne_of_level h0 h
    simp only [binomialAt, if_pos hlow, if_neg hne, if_pos h0, Tx.data,
      slice_bcasted (hn _ hs) (hn root hroot)]
    rfl
  · intro r hr hS hR
    by_cases hlow : rel P root r % 2 ^ j = 0
    · rcases low_cases hlow with ⟨h0, -⟩ | ⟨h, -⟩
      · have hlt : ¬ rel P root r + 2 ^ j < P := fun hlt => hS ⟨h0, hlt⟩
        simp only [binomialAt, if_pos hlow, if_pos h0, bcastBinomialDown_succ, if_neg hlt,
          Prog.ret_bind]
      · exact absurd h hR
    · have h0 : ¬ rel P root r % 2 ^ (j + 1) = 0 := fun h0 => hlow (low_of_succ h0).1
      simp only [binomialAt, if_neg hlow, if_neg h0]

theorem bcastBinomial_together (hP : 2 ≤ P) (hroot : root < P)
    (hn : ∀ r, r < P → n ≤ (m r b).length) :
    Together P (fun r => bcastBinomial P r (m r) b n root)
      (fun r => .ret (bcasted m b n root r)) := by
  obtain ⟨K, hK, hpow⟩ := exists_pow_ge P
  have hstart : Together P (fun r => bcastBinomial P r (m r) b n root)
      (binomialAt P m b n root K) := by
    refine .of_eq fun r hr => ?_
    have hrel := rel_lt (P := P) root r (by omega)
    unfold binomialAt
    split
    · next h0 =>
      rw [Nat.mod_eq_of_lt (by omega)] at h0
      obtain rfl := (rel_eq_zero hroot hr).mp h0
      have hge : ¬ 2 ^ K < P := by omega
      simp only [bcastBinomial, h0, scanMask_zero hpow (Nat.zero_le K), if_neg hge,
        bcasted_root (hn r hr), Prog.ret_bind]
    · rfl
  have hend : Together P (binomialAt P m b n root 0) (fun r => .ret (bcasted m b n root r)) := by
    refine .of_eq fun r _ => ?_
    rw [binomialAt, if_pos (by omega), bcastBinomialDown_zero, Prog.ret_bind]
  obtain ⟨-, -, hdown⟩ := Together.descend (P := P) (n := K) (s := ())
    (fun j _ => binomialAt P m b n root j) (fun _ _ => True)
    (fun j _ _ _ => ⟨(), trivial, binomialAt_step hP hroot hn j⟩) trivial
  exact hstart.trans (hdown.trans hend)

end

/-! ## The scatter -/

/-- The bytes of the `w` pieces of `ss` bytes from piece `x` on, in a message of `n`. -/
def held (n ss x w : Nat) : Nat := min n ((x + w) * ss) - x * ss

theorem held_le (n ss x w : Nat) : held n ss x w = 0 ∨ x * ss + held n ss x w ≤ n := by
  unfold held
  omega

/-- When the second half of `2 * w` pieces is not empty, the first half is whole. -/
theorem held_split {n ss x w : Nat} (hw : 0 < w * ss) (h : (x + w) * ss < n) :
    ss * w < held n ss x (2 * w) ∧ held n ss x (2 * w) - ss * w = held n ss (x + w) w ∧
      ss * w = held n ss x w := by
  have h2 : (x + 2 * w) * ss = (x + w) * ss + w * ss := by ring
  have h3 : (x + w + w) * ss = (x + w) * ss + w * ss := by ring
  have h4 : (x + w) * ss = x * ss + w * ss := by ring
  have h5 : ss * w = w * ss := Nat.mul_comm ..
  unfold held
  omega

/-- When it is empty, the first half is all there is. -/
theorem held_short {n ss x w : Nat} (h : n ≤ (x + w) * ss) :
    held n ss x (2 * w) ≤ ss * w ∧ held n ss x (2 * w) = held n ss x w := by
  have h2 : (x + 2 * w) * ss = (x + w) * ss + w * ss := by ring
  have h4 : (x + w) * ss = x * ss + w * ss := by ring
  have h5 : ss * w = w * ss := Nat.mul_comm ..
  unfold held
  omega

section

variable {P : Nat} {m : Nat → Mem} {b : BufId} {n ss root : Nat}

theorem fits_held {l : Bytes} (h : n ≤ l.length) (ss x w : Nat) :
    Fits l (x * ss) (held n ss x w) := by
  have := held_le n ss x w
  unfold Fits
  omega

theorem bcastScatterDown_zero (P rank : Nat) (M : Mem) (curr : Nat) :
    bcastScatterDown P rank M b ss root curr (2 ^ 0 / 2) = .ret curr := by
  rw [bcastScatterDown]
  rfl

theorem bcastScatterDown_send {P rank : Nat} {M : Mem} {j : Nat} (hss : 0 < ss)
    (hlt : rel P root rank + 2 ^ j < P) (hne : (rel P root rank + 2 ^ j) * ss < n) :
    bcastScatterDown P rank M b ss root (held n ss (rel P root rank) (2 ^ (j + 1)))
        (2 ^ (j + 1) / 2)
      = (sendBytes P M b ((rel P root rank + 2 ^ j) * ss)
          (held n ss (rel P root rank + 2 ^ j) (2 ^ j)) ((rank + 2 ^ j) % P) 0 >>= fun _ =>
        bcastScatterDown P rank M b ss root (held n ss (rel P root rank) (2 ^ j)) (2 ^ j / 2)) := by
  obtain ⟨h₁, h₂, h₃⟩ := held_split (Nat.mul_pos (Nat.two_pow_pos j) hss) hne
  rw [half_pow_succ, bcastScatterDown, if_pos (Nat.two_pow_pos j), if_pos hlt, Nat.pow_succ',
    if_pos h₁, h₂, h₃]

theorem bcastScatterDown_skip {P rank : Nat} {M : Mem} {j : Nat} (hss : n ≤ P * ss)
    (h : ¬ (rel P root rank + 2 ^ j < P ∧ (rel P root rank + 2 ^ j) * ss < n)) :
    bcastScatterDown P rank M b ss root (held n ss (rel P root rank) (2 ^ (j + 1)))
        (2 ^ (j + 1) / 2)
      = bcastScatterDown P rank M b ss root (held n ss (rel P root rank) (2 ^ j)) (2 ^ j / 2) := by
  have hle : n ≤ (rel P root rank + 2 ^ j) * ss := by
    by_cases hlt : rel P root rank + 2 ^ j < P
    · have := fun hne => h ⟨hlt, hne⟩
      omega
    · exact hss.trans (Nat.mul_le_mul_right ss (by omega))
  obtain ⟨h₁, h₂⟩ := held_short hle
  rw [half_pow_succ, bcastScatterDown, if_pos (Nat.two_pow_pos j), Nat.pow_succ']
  rw [if_neg (show ¬ held n ss (rel P root rank) (2 * 2 ^ j) > ss * 2 ^ j by omega), ite_self, h₂]

/-- Where rank `r` is when the ranks of level `j` hold their subtree's pieces. -/
def scatterAt (P : Nat) (m : Nat → Mem) (b : BufId) (n ss root j : Nat) (M : Nat → Mem) (r : Nat) :
    Rank (Nat × Mem) :=
  if rel P root r % 2 ^ j = 0 then
    bcastScatterDown P r (M r) b ss root (held n ss (rel P root r) (2 ^ j)) (2 ^ j / 2) >>= fun c =>
      .ret (c, M r)
  else bcastScatter P r (m r) b n ss root

/-- The ranks of level `j` hold the pieces of their subtrees; the others have not
started. -/
structure Scattered (P : Nat) (m : Nat → Mem) (b : BufId) (n ss root j : Nat) (M : Nat → Mem) :
    Prop where
  keeps : ∀ r, r < P → Keeps b (· < n) (m r) (M r)
  holds : ∀ r, r < P → rel P root r % 2 ^ j = 0 →
    Holds (m root b) (M r b) (rel P root r * ss) (min n ((rel P root r + 2 ^ j) * ss))
  fresh : ∀ r, r < P → rel P root r % 2 ^ j ≠ 0 → M r = m r

/-- The memories one level further down: the children have received. -/
def scatterMem (P : Nat) (m : Nat → Mem) (b : BufId) (n ss root j : Nat) (M : Nat → Mem) (r : Nat) :
    Mem :=
  if rel P root r % 2 ^ (j + 1) = 2 ^ j ∧ rel P root r * ss < n then
    (M r).put b (rel P root r * ss)
      (slice (m root b) (rel P root r * ss) (held n ss (rel P root r) (2 ^ j)))
  else M r

theorem Scattered.step (hroot : root < P) (hn : ∀ r, r < P → n ≤ (m r b).length) {j : Nat}
    {M : Nat → Mem} (hI : Scattered P m b n ss root (j + 1) M) :
    Scattered P m b n ss root j (scatterMem P m b n ss root j M) := by
  have hfit : ∀ r, r < P → Fits (M r b) (rel P root r * ss) (held n ss (rel P root r) (2 ^ j)) :=
    fun r hr => fits_held ((hI.keeps r hr).len ▸ hn r hr) ..
  have hfit' : ∀ r, Fits (m root b) (rel P root r * ss) (held n ss (rel P root r) (2 ^ j)) :=
    fun r => fits_held (hn root hroot) ..
  constructor
  · intro r hr
    unfold scatterMem
    split
    · next h =>
      have := held_le n ss (rel P root r) (2 ^ j)
      exact (hI.keeps r hr).trans (keeps_put_slice (hfit r hr) (hfit' r) fun x _ hx => by omega)
    · exact hI.keeps r hr
  · intro r hr hlow x hlo hhi
    unfold scatterMem
    split
    · next h =>
      rw [getElem?_put_slice (hfit r hr) (hfit' r), if_pos]
      unfold held
      omega
    · next hR =>
      rcases low_cases hlow with ⟨h0, -⟩ | ⟨h, -⟩
      · refine hI.holds r hr h0 x hlo ?_
        have : (rel P root r + 2 ^ j) * ss ≤ (rel P root r + 2 ^ (j + 1)) * ss :=
          Nat.mul_le_mul_right ss (by rw [Nat.pow_succ']; omega)
        omega
      · have : ¬ rel P root r * ss < n := fun hne => hR ⟨h, hne⟩
        omega
  · intro r hr hlow
    have hR : ¬ (rel P root r % 2 ^ (j + 1) = 2 ^ j ∧ rel P root r * ss < n) :=
      fun h => hlow (low_of_pow h.1).1
    rw [scatterMem, if_neg hR]
    exact hI.fresh r hr fun h0 => hlow (low_of_succ h0).1

theorem held_end_le {x y j : Nat} (hsum : y + 2 ^ j = x) (hne : x * ss < n) :
    x * ss + held n ss x (2 ^ j) ≤ min n ((y + 2 ^ (j + 1)) * ss) := by
  have h2 : (y + 2 ^ (j + 1)) * ss = (x + 2 ^ j) * ss := by
    rw [← hsum, Nat.pow_succ']
    ring
  have h3 : x * ss ≤ (x + 2 ^ j) * ss := Nat.mul_le_mul_right ss (Nat.le_add_right ..)
  unfold held
  omega

theorem scatterAt_step (hP : 2 ≤ P) (hroot : root < P) (hn : ∀ r, r < P → n ≤ (m r b).length)
    (hss : n ≤ P * ss) {j : Nat} {M : Nat → Mem} (hI : Scattered P m b n ss root (j + 1) M) :
    ∃ M', Scattered P m b n ss root j M' ∧
      Together P (scatterAt P m b n ss root (j + 1) M) (scatterAt P m b n ss root j M') := by
  refine ⟨scatterMem P m b n ss root j M, hI.step hroot hn, ?_⟩
  refine Together.deliver (m := M)
    (fun r => rel P root r % 2 ^ (j + 1) = 0 ∧ rel P root r + 2 ^ j < P ∧
      (rel P root r + 2 ^ j) * ss < n)
    (fun r => rel P root r % 2 ^ (j + 1) = 2 ^ j ∧ rel P root r * ss < n) hP
    (fun r => ⟨(r + 2 ^ j) % P, b, (rel P root r + 2 ^ j) * ss,
      held n ss (rel P root r + 2 ^ j) (2 ^ j)⟩)
    (fun r => ⟨(r + P - 2 ^ j) % P, b, rel P root r * ss, n - rel P root r * ss⟩)
    (fun r x => bcastScatterDown P r x.2 b ss root x.1 (2 ^ j / 2) >>= fun c => .ret (c, x.2))
    ?_ ?_ ?_ ?_ ?_ ?_ ?_ ?_ ?_ ?_
  · rintro s hs ⟨h0, hlt, hne⟩
    obtain ⟨hd, hrel, hbit, hback⟩ := child hroot hs h0 hlt
    exact ⟨hd, ⟨hbit, by rw [hrel]; exact hne⟩, hback⟩
  · rintro d hd ⟨h, hne⟩
    have hrel := rel_lt (P := P) root d (by omega)
    obtain ⟨hs, hsum, h0, hback⟩ := parent hroot hd h
    exact ⟨hs, ⟨h0, hsum.trans_lt hrel, by rw [hsum]; exact hne⟩, hback⟩
  · rintro r - ⟨h0, -⟩ h
    exact ne_of_level h0 h.1
  · rintro s hs -
    exact fits_held ((hI.keeps s hs).len ▸ hn s hs) ..
  · rintro d hd ⟨h, -⟩
    obtain ⟨-, hsum, -, -⟩ := parent hroot hd h
    simp only [hsum]
    exact fits_held ((hI.keeps d hd).len ▸ hn d hd) ..
  · rintro d hd ⟨h, -⟩
    obtain ⟨-, hsum, -, -⟩ := parent hroot hd h
    have := held_le n ss (rel P root d) (2 ^ j)
    simp only [hsum]
    omega
  · rintro s hs ⟨h0, hlt, hne⟩
    have hpos : 0 < ss := by
      by_contra hz
      rw [Nat.eq_zero_of_not_pos hz] at hss
      omega
    have hR : ¬ (rel P root s % 2 ^ (j + 1) = 2 ^ j ∧ rel P root s * ss < n) :=
      fun h => ne_of_level h0 h.1
    simp only [scatterAt, if_pos h0, if_pos (low_of_succ h0).1, scatterMem, if_neg hR,
      bcastScatterDown_send hpos hlt hne, Prog.bind_assoc]
  · rintro d hd ⟨h, hne⟩
    obtain ⟨hlow, hbit⟩ := low_of_pow h
    have hrel := rel_lt (P := P) root d (by omega)
    have h0 : ¬ rel P root d % 2 ^ (j + 1) = 0 := fun h0 => ne_of_level h0 h
    have hmask : 2 ^ j < P := by have := pow_le_of_testBit hbit; omega
    simp only [scatterAt, if_neg h0, bcastScatter, scanMask_of_bit hrel hlow hbit (Nat.zero_le j),
      if_pos hmask, if_pos hne, hI.fresh d hd h0]
  · rintro d hd ⟨h, hne⟩
    obtain ⟨hlow, hbit⟩ := low_of_pow h
    obtain ⟨hs, hsum, h0, -⟩ := parent hroot hd h
    have hslice := (hI.holds _ hs h0).slice_eq (o := rel P root d * ss)
      (n := held n ss (rel P root d) (2 ^ j))
      (.inr ⟨Nat.mul_le_mul_right ss (by omega), held_end_le hsum hne⟩)
    simp only [scatterAt, scatterMem, if_pos hlow, if_pos (And.intro h hne), hsum, Tx.data, hslice]
  · intro r hr hS hR
    by_cases hlow : rel P root r % 2 ^ j = 0
    · rcases low_cases hlow with ⟨h0, -⟩ | ⟨h, hbit⟩
      · have hskip : ¬ (rel P root r + 2 ^ j < P ∧ (rel P root r + 2 ^ j) * ss < n) :=
          fun h => hS ⟨h0, h.1, h.2⟩
        simp only [scatterAt, scatterMem, if_pos hlow, if_pos h0, if_neg hR, bcastScatterDown_skip hss hskip]
      · -- a rank whose piece starts past the end: neither it nor its parent says a word
        have h0 : ¬ rel P root r % 2 ^ (j + 1) = 0 := fun h0 => ne_of_level h0 h
        have hne : ¬ rel P root r * ss < n := fun hne => hR ⟨h, hne⟩
        have hrel := rel_lt (P := P) root r (by omega)
        have hmask : 2 ^ j < P := by have := pow_le_of_testBit hbit; omega
        have hzero : held n ss (rel P root r) (2 ^ j) = 0 := by unfold held; omega
        simp only [scatterAt, scatterMem, if_pos hlow, if_neg h0, if_neg hR, bcastScatter,
          scanMask_of_bit hrel hlow hbit (Nat.zero_le j), if_pos hmask, if_neg hne,
          hI.fresh r hr h0, hzero, Prog.ret_bind]
    · have h0 : ¬ rel P root r % 2 ^ (j + 1) = 0 := fun h0 => hlow (low_of_succ h0).1
      simp only [scatterAt, if_neg hlow, if_neg h0]

/-- **The scatter.** Every rank ends with its own piece and knows its length. -/
theorem bcastScatter_together (hP : 2 ≤ P) (hroot : root < P)
    (hn : ∀ r, r < P → n ≤ (m r b).length) (hss : n ≤ P * ss) :
    ∃ M : Nat → Mem, (∀ r, r < P → Keeps b (· < n) (m r) (M r) ∧ Holds (m root b) (M r b)
        (rel P root r * ss) (min n ((rel P root r + 1) * ss))) ∧
      Together P (fun r => bcastScatter P r (m r) b n ss root)
        (fun r => .ret (held n ss (rel P root r) 1, M r)) := by
  obtain ⟨K, hK, hpow⟩ := exists_pow_ge P
  have hinit : Scattered P m b n ss root K m := by
    refine ⟨fun r _ => .refl .., fun r hr h0 => ?_, fun _ _ _ => rfl⟩
    have hrel := rel_lt (P := P) root r (by omega)
    rw [Nat.mod_eq_of_lt (by omega)] at h0
    obtain rfl := (rel_eq_zero hroot hr).mp h0
    exact fun _ _ _ => rfl
  have hstart : Together P (fun r => bcastScatter P r (m r) b n ss root)
      (scatterAt P m b n ss root K m) := by
    refine .of_eq fun r hr => ?_
    have hrel := rel_lt (P := P) root r (by omega)
    unfold scatterAt
    split
    · next h0 =>
      rw [Nat.mod_eq_of_lt (by omega)] at h0
      have hall : held n ss 0 (2 ^ K) = n := by
        have : P * ss ≤ 2 ^ K * ss := Nat.mul_le_mul_right ss hK
        unfold held
        rw [Nat.zero_add]
        omega
      have hge : ¬ 2 ^ K < P := by omega
      simp only [bcastScatter, h0, scanMask_zero hpow (Nat.zero_le K), if_neg hge, if_true,
        Prog.ret_bind, hall]
    · rfl
  obtain ⟨M, hM, hdown⟩ := Together.descend (P := P) (n := K) (scatterAt P m b n ss root)
    (Scattered P m b n ss root) (fun j M _ hI => scatterAt_step hP hroot hn hss hI) hinit
  refine ⟨M, fun r hr => ⟨hM.keeps r hr, ?_⟩, hstart.trans (hdown.trans (.of_eq fun r hr => ?_))⟩
  · simpa using hM.holds r hr (by omega)
  · rw [scatterAt, if_pos (by omega), bcastScatterDown_zero, Prog.ret_bind, Nat.pow_zero]

/-! ## The allgathers -/

theorem slice_at {l : Bytes} {c : Prop} [Decidable c] {o len : Nat} (h : ¬ c → len = 0) :
    slice l (if c then o else 0) len = slice l o len := by
  split
  · rfl
  · next hc => rw [h hc, slice_zero, slice_zero]

theorem put_at {M : Mem} {c : Prop} [Decidable c] {o : Nat} {d : Bytes} (h : ¬ c → d = []) :
    M.put b (if c then o else 0) d = M.put b o d := by
  split
  · rfl
  · next hc => rw [h hc, Mem.put_nil, Mem.put_nil]

theorem fits_at {l : Bytes} {c : Prop} [Decidable c] {o len : Nat} (h : Fits l o len)
    (h0 : ¬ c → len = 0) : Fits l (if c then o else 0) len := by
  split
  · exact h
  · next hc => exact .inl (h0 hc)

theorem held_eq_zero {x w : Nat} (h : ¬ x * ss < n) : held n ss x w = 0 := by
  unfold held
  omega

theorem held_add (n ss x w : Nat) : held n ss x w + held n ss (x + w) w = held n ss x (2 * w) := by
  have h2 : (x + 2 * w) * ss = (x + w) * ss + w * ss := by ring
  have h3 : (x + w + w) * ss = (x + w) * ss + w * ss := by ring
  have h4 : (x + w) * ss = x * ss + w * ss := by ring
  unfold held
  omega

theorem held_le_mul (n ss x w : Nat) : held n ss x w ≤ w * ss := by
  have h4 : (x + w) * ss = x * ss + w * ss := by ring
  unfold held
  omega

/-- Rank `r` holds the `w` pieces from piece `x` on. -/
def HasPieces (D : Bytes) (n ss : Nat) (l : Bytes) (x w : Nat) : Prop :=
  Holds D l (x * ss) (min n ((x + w) * ss))

/-- What a rank sends of its pieces are the root's bytes. -/
theorem HasPieces.slice_eq {D l : Bytes} {x w : Nat} (h : HasPieces D n ss l x w) :
    slice l (x * ss) (held n ss x w) = slice D (x * ss) (held n ss x w) := by
  refine Holds.slice_eq h ?_
  unfold held
  omega

/-- Disjoint runs of pieces lie apart, also where an empty one is moved to offset 0. -/
theorem held_apart {x y w : Nat} {c d : Prop} [Decidable c] [Decidable d]
    (hc : ¬ c → held n ss x w = 0) (hd : ¬ d → held n ss y w = 0) (h : x + w ≤ y ∨ y + w ≤ x) :
    Apart (if c then x * ss else 0) (held n ss x w) (if d then y * ss else 0)
      (held n ss y w) := by
  have hx := held_le_mul n ss x w
  have hy := held_le_mul n ss y w
  have hxw : (x + w) * ss = x * ss + w * ss := Nat.add_mul ..
  have hyw : (y + w) * ss = y * ss + w * ss := Nat.add_mul ..
  have hle : x * ss + w * ss ≤ y * ss ∨ y * ss + w * ss ≤ x * ss := by
    rw [← hxw, ← hyw]
    exact h.imp (Nat.mul_le_mul_right ss) (Nat.mul_le_mul_right ss)
  by_cases h₁ : c
  · by_cases h₂ : d
    · simp only [if_pos h₁, if_pos h₂]
      unfold Apart
      omega
    · exact .inr (.inl (hd h₂))
  · exact .inl (hc h₁)

theorem HasPieces.put {D : Bytes} {M : Mem} (ss y w : Nat) (hD : n ≤ D.length)
    (hM : n ≤ (M b).length) :
    HasPieces D n ss (M.put b (y * ss) (slice D (y * ss) (held n ss y w)) b) y w ∧
      ∀ x v, HasPieces D n ss (M b) x v →
        HasPieces D n ss (M.put b (y * ss) (slice D (y * ss) (held n ss y w)) b) x v := by
  have hf := fits_held hM ss y w
  have hf' := fits_held hD ss y w
  refine ⟨fun i hlo hhi => ?_, fun x v h => Holds.put h hf hf'⟩
  exact holds_put hf hf' i hlo (by unfold held; omega)

theorem HasPieces.join {D l : Bytes} {x w : Nat} (h : HasPieces D n ss l x w)
    (h' : HasPieces D n ss l (x + w) w) : HasPieces D n ss l x (2 * w) := by
  have h2 : (x + 2 * w) * ss = (x + w + w) * ss := by ring
  intro i hlo hhi
  rcases Nat.lt_or_ge i ((x + w) * ss) with hi | hi
  · exact h i hlo (by omega)
  · exact h' i hi (by omega)

theorem keeps_put_pieces {D : Bytes} {M : Mem} {y w : Nat} (hD : n ≤ D.length)
    (hM : n ≤ (M b).length) :
    Keeps b (· < n) M (M.put b (y * ss) (slice D (y * ss) (held n ss y w))) := by
  have := held_le n ss y w
  exact keeps_put_slice (fits_held hM ss y w) (fits_held hD ss y w) fun x _ hx => by omega

/-- Before step `i` of recursive doubling rank `r` has the `2 ^ i` pieces of its block. -/
structure RdHas (P : Nat) (m : Nat → Mem) (b : BufId) (n ss root i : Nat) (M : Nat → Mem) :
    Prop where
  keeps : ∀ r, r < P → Keeps b (· < n) (m r) (M r)
  has : ∀ r, r < P → HasPieces (m root b) n ss (M r b) (blockStart (rel P root r) i) (2 ^ i)

/-- Where rank `r` is before step `i`, knowing how many bytes it holds. -/
def bcastRdAt (P : Nat) (b : BufId) (n ss root i : Nat) (M : Nat → Mem) (r : Nat) : Rank Mem :=
  bcastRdFrom P r b n ss root i (held n ss (blockStart (rel P root r) i) (2 ^ i)) (M r)

/-- The other half of `r`'s block arrives. -/
def bcastRdMem (P : Nat) (m : Nat → Mem) (b : BufId) (n ss root i : Nat) (M : Nat → Mem) (r : Nat) :
    Mem :=
  let y := blockStart (rel P root r ^^^ 2 ^ i) i
  (M r).put b (y * ss) (slice (m root b) (y * ss) (held n ss y (2 ^ i)))

theorem RdHas.step (hroot : root < P) (hn : ∀ r, r < P → n ≤ (m r b).length) {i : Nat}
    {M : Nat → Mem} (hI : RdHas P m b n ss root i M) :
    RdHas P m b n ss root (i + 1) (bcastRdMem P m b n ss root i M) := by
  have hD := hn root hroot
  have hlen : ∀ r, r < P → n ≤ (M r b).length := fun r hr => (hI.keeps r hr).len ▸ hn r hr
  constructor
  · intro r hr
    exact (hI.keeps r hr).trans (keeps_put_pieces hD (hlen r hr))
  · intro r hr
    obtain ⟨hnew, hold⟩ := HasPieces.put (b := b) ss
      (blockStart (rel P root r ^^^ 2 ^ i) i) (2 ^ i) hD (hlen r hr)
    have hold := hold _ _ (hI.has r hr)
    rw [Nat.pow_succ']
    rcases blockStart_cases (rel P root r) i with ⟨-, hb, hbase⟩ | ⟨-, hb, hbase⟩
    · rw [hbase]
      refine hold.join ?_
      rw [← hb]
      exact hnew
    · rw [hbase]
      refine hnew.join ?_
      rw [← hb]
      exact hold

theorem bcastRdAt_step {K : Nat} (hP : 2 ≤ P) (hpow : P = 2 ^ K) (hroot : root < P)
    (hn : ∀ r, r < P → n ≤ (m r b).length) {i : Nat} (hi : i < K) {M : Nat → Mem}
    (hI : RdHas P m b n ss root i M) :
    Together P (bcastRdAt P b n ss root i M)
      (bcastRdAt P b n ss root (i + 1) (bcastRdMem P m b n ss root i M)) := by
  have hmask : 2 ^ i < P := by
    rw [hpow]
    exact Nat.pow_lt_pow_right (by omega) hi
  have hpeer : ∀ r, rel P root (((rel P root r ^^^ 2 ^ i) + root) % P) = rel P root r ^^^ 2 ^ i := by
    intro r
    have := rel_lt (P := P) root r (by omega)
    exact rel_ofRel hroot (by rw [hpow] at this ⊢; exact xor_pow_lt this hi)
  have hback : ∀ r, r < P →
      ((rel P root (((rel P root r ^^^ 2 ^ i) + root) % P) ^^^ 2 ^ i) + root) % P = r := by
    intro r hr
    rw [hpeer, Nat.xor_assoc, Nat.xor_self, Nat.xor_zero, ofRel_rel hroot hr]
  have hlen : ∀ r, r < P → n ≤ (M r b).length := fun r hr => (hI.keeps r hr).len ▸ hn r hr
  have hmod : ∀ r, ((rel P root r ^^^ 2 ^ i) + root) % P < P := fun r => Nat.mod_lt _ (by omega)
  refine Together.exchange (m := M) (fun _ => True) hP
    (fun r => ⟨((rel P root r ^^^ 2 ^ i) + root) % P, b,
      if blockStart (rel P root r) i * ss < n then blockStart (rel P root r) i * ss else 0,
      held n ss (blockStart (rel P root r) i) (2 ^ i)⟩)
    (fun r => ⟨((rel P root r ^^^ 2 ^ i) + root) % P, b,
      if blockStart (rel P root r ^^^ 2 ^ i) i * ss < n
        then blockStart (rel P root r ^^^ 2 ^ i) i * ss else 0,
      if blockStart (rel P root r ^^^ 2 ^ i) i * ss < n
        then n - blockStart (rel P root r ^^^ 2 ^ i) i * ss else 0⟩)
    (fun r x => bcastRdFrom P r b n ss root (i + 1)
      (held n ss (blockStart (rel P root r) i) (2 ^ i) + x.1) x.2)
    ?_ ?_ ?_ ?_ ?_ ?_ ?_ ?_ ?_
  · exact fun r hr _ => ⟨hmod r, trivial, hback r hr⟩
  · exact fun r hr _ => ⟨hmod r, trivial, hback r hr⟩
  · exact fun r hr _ => fits_at (fits_held (hlen r hr) ..) held_eq_zero
  · intro r hr _
    simp only [hpeer]
    exact fits_at (fits_held (hlen r hr) ..) held_eq_zero
  · intro r hr _
    simp only [hpeer]
    have := held_le n ss (blockStart (rel P root r ^^^ 2 ^ i) i) (2 ^ i)
    split
    · omega
    · next h => exact Nat.le_of_eq (held_eq_zero h)
  · intro r hr _
    right
    simp only [hpeer]
    apply held_apart held_eq_zero held_eq_zero
    rcases blockStart_cases (rel P root r) i with ⟨-, hb, -⟩ | ⟨-, hb, -⟩ <;> omega
  · intro r hr _
    simp only [bcastRdAt]
    rw [bcastRdFrom, if_pos hmask]
    simp only [shift_base]
  · intro r hr _
    have hslice := (hI.has _ (hmod r)).slice_eq
    rw [hpeer] at hslice
    have hsum : held n ss (blockStart (rel P root r) i) (2 ^ i)
        + held n ss (blockStart (rel P root r ^^^ 2 ^ i) i) (2 ^ i)
        = held n ss (blockStart (rel P root r) (i + 1)) (2 ^ (i + 1)) := by
      rw [Nat.pow_succ']
      rcases blockStart_cases (rel P root r) i with ⟨-, hb, hbase⟩ | ⟨-, hb, hbase⟩
      · rw [hbase, hb, held_add]
      · rw [hbase, hb, Nat.add_comm, held_add]
    simp only [bcastRdAt, bcastRdMem, Tx.data, hpeer, hsum, slice_at held_eq_zero, hslice]
    rw [put_at]
    intro h
    rw [held_eq_zero h, slice_zero]
  · exact fun r _ h => absurd trivial h

theorem le_mul_ceil (hP : 2 ≤ P) (n : Nat) : n ≤ P * ((n + P - 1) / P) := by
  have := Nat.lt_mul_div_succ (n + P - 1) (show 0 < P by omega)
  rw [Nat.mul_add, Nat.mul_one] at this
  omega

theorem bcastScatterRdAllgather_together {K : Nat} (hP : 2 ≤ P) (hpow : P = 2 ^ K)
    (hroot : root < P) (hn : ∀ r, r < P → n ≤ (m r b).length) :
    Together P (fun r => bcastScatterRdAllgather P r (m r) b n root)
      (fun r => .ret (bcasted m b n root r)) := by
  have hss := le_mul_ceil hP n
  generalize hs : (n + P - 1) / P = ss at hss
  obtain ⟨M, hM, hscatter⟩ := bcastScatter_together (b := b) hP hroot hn hss
  have hinit : RdHas P m b n ss root 0 M := by
    refine ⟨fun r hr => (hM r hr).1, fun r hr => ?_⟩
    rw [blockStart_zero]
    exact (hM r hr).2
  obtain ⟨M', hM', hrd⟩ := Together.ascend (P := P) (n := K) (bcastRdAt P b n ss root)
    (RdHas P m b n ss root)
    (fun i M hi hI => ⟨_, hI.step hroot hn, bcastRdAt_step hP hpow hroot hn hi hI⟩) hinit
  have hstart : Together P (fun r => bcastScatterRdAllgather P r (m r) b n root)
      (bcastRdAt P b n ss root 0 M) := by
    refine (hscatter.bind fun r x => bcastRdFrom P r b n ss root 0 x.1 x.2).trans
      (.of_eq fun r hr => ?_) |> Together.trans (.of_eq fun r hr => ?_)
    · simp only [bcastScatterRdAllgather, hs]
    · rw [bcastRdAt, blockStart_zero, Nat.pow_zero, Prog.ret_bind]
  refine hstart.trans (hrd.trans (.of_eq fun r hr => ?_))
  have hrel := rel_lt (P := P) root r (by omega)
  rw [bcastRdAt, bcastRdFrom, if_neg (by omega)]
  congr 1
  refine eq_bcasted (hn r hr) (hn root hroot) (hM'.keeps r hr) ?_
  have := hM'.has r hr
  rw [blockStart_of_lt (hpow ▸ hrel)] at this
  intro x _ hx
  exact this x (by omega) (by rw [Nat.zero_add, ← hpow]; omega)

/-- Before step `t + 1` of the ring rank `r` has the pieces of the `t + 1` ranks up to itself. -/
structure RingHas (P : Nat) (m : Nat → Mem) (b : BufId) (n ss root t : Nat) (M : Nat → Mem) :
    Prop where
  keeps : ∀ r, r < P → Keeps b (· < n) (m r) (M r)
  has : ∀ r, r < P → ∀ u, u ≤ t →
    HasPieces (m root b) n ss (M r b) (rel P root ((r + P - u) % P)) 1

def bcastRingAt (P : Nat) (b : BufId) (n ss root t : Nat) (M : Nat → Mem) (r : Nat) : Rank Mem :=
  bcastRingFrom P r b n ss root (t + 1) ((r + P - t) % P) ((r + P - (t + 1)) % P) (M r)

def bcastRingMem (P : Nat) (m : Nat → Mem) (b : BufId) (n ss root t : Nat) (M : Nat → Mem)
    (r : Nat) : Mem :=
  let y := rel P root ((r + P - (t + 1)) % P)
  (M r).put b (y * ss) (slice (m root b) (y * ss) (held n ss y 1))

theorem RingHas.step (hroot : root < P) (hn : ∀ r, r < P → n ≤ (m r b).length) {t : Nat}
    {M : Nat → Mem} (hI : RingHas P m b n ss root t M) :
    RingHas P m b n ss root (t + 1) (bcastRingMem P m b n ss root t M) := by
  have hD := hn root hroot
  have hlen : ∀ r, r < P → n ≤ (M r b).length := fun r hr => (hI.keeps r hr).len ▸ hn r hr
  constructor
  · intro r hr
    exact (hI.keeps r hr).trans (keeps_put_pieces hD (hlen r hr))
  · intro r hr u hu
    obtain ⟨hnew, hold⟩ := HasPieces.put (b := b) ss
      (rel P root ((r + P - (t + 1)) % P)) 1 hD (hlen r hr)
    rcases Nat.lt_or_ge t u with h | h
    · obtain rfl : u = t + 1 := by omega
      exact hnew
    · exact hold _ _ (hI.has r hr u h)

/-- The length of a piece, as the ring computes it. -/
theorem piece_eq (n ss x : Nat) :
    (if x * ss < n then (if n - x * ss < ss then n - x * ss else ss) else 0) = held n ss x 1 := by
  have : (x + 1) * ss = x * ss + ss := by ring
  unfold held
  split
  · split <;> omega
  · omega

theorem bcastRingAt_step (hP : 2 ≤ P) (hroot : root < P)
    (hn : ∀ r, r < P → n ≤ (m r b).length) {t : Nat} (ht : t < P - 1) {M : Nat → Mem}
    (hI : RingHas P m b n ss root t M) :
    Together P (bcastRingAt P b n ss root t M)
      (bcastRingAt P b n ss root (t + 1) (bcastRingMem P m b n ss root t M)) := by
  have hlen : ∀ r, r < P → n ≤ (M r b).length := fun r hr => (hI.keeps r hr).len ▸ hn r hr
  have hmod : ∀ x, x % P < P := fun x => Nat.mod_lt _ (by omega)
  have hleft : ∀ r, r < P → ((r + P - 1) % P + P - t) % P = (r + P - (t + 1)) % P :=
    fun r hr => down_down hr (by omega) (by omega)
  refine Together.exchange (m := M) (fun _ => True) hP
    (fun r => ⟨(r + 1) % P, b, if held n ss (rel P root ((r + P - t) % P)) 1 ≠ 0
      then rel P root ((r + P - t) % P) * ss else 0,
      held n ss (rel P root ((r + P - t) % P)) 1⟩)
    (fun r => ⟨(r + P - 1) % P, b, if held n ss (rel P root ((r + P - (t + 1)) % P)) 1 ≠ 0
      then rel P root ((r + P - (t + 1)) % P) * ss else 0,
      held n ss (rel P root ((r + P - (t + 1)) % P)) 1⟩)
    (fun r x => bcastRingFrom P r b n ss root (t + 1 + 1) ((r + P - (t + 1)) % P)
      ((P + (r + P - (t + 1)) % P - 1) % P) x.2)
    ?_ ?_ ?_ ?_ ?_ ?_ ?_ ?_ ?_
  · exact fun r hr _ => ⟨hmod _, trivial, down_up hr (by omega)⟩
  · exact fun r hr _ => ⟨hmod _, trivial, up_down hr (by omega)⟩
  · exact fun r hr _ => fits_at (fits_held (hlen r hr) ..) fun h => by simpa using h
  · intro r hr _
    simp only [hleft r hr]
    exact fits_at (fits_held (hlen r hr) ..) fun h => by simpa using h
  · intro r hr _
    simp only [hleft r hr]
    exact Nat.le_refl _
  · intro r hr _
    right
    simp only [hleft r hr]
    refine held_apart (fun h => by simpa using h) (fun h => by simpa using h) ?_
    have hne : rel P root ((r + P - t) % P) ≠ rel P root ((r + P - (t + 1)) % P) := by
      intro h
      have := down_inj hr (by omega) (by omega) (rel_inj hroot (hmod _) (hmod _) h)
      omega
    omega
  · intro r hr _
    simp only [bcastRingAt]
    rw [bcastRingFrom, if_pos (by omega)]
    simp only [piece_eq, Nat.add_comm P r]
  · intro r hr _
    have hslice := (hI.has ((r + P - 1) % P) (hmod _) t (Nat.le_refl t)).slice_eq
    rw [hleft r hr] at hslice
    simp only [bcastRingAt, bcastRingMem, Tx.data, hleft r hr]
    rw [slice_at (fun h => by simpa using h), hslice, put_at, Nat.add_comm P,
      down_down hr (by omega) (by omega), Nat.add_comm 1]
    intro h
    rw [Decidable.not_not.mp h, slice_zero]
  · exact fun r _ h => absurd trivial h

theorem RingHas.all (hP : 2 ≤ P) (hroot : root < P) (hss : n ≤ P * ss) {M : Nat → Mem}
    (hI : RingHas P m b n ss root (P - 1) M) {r : Nat} (hr : r < P) :
    Holds (m root b) (M r b) 0 n := by
  intro x _ hx
  have hpos : 0 < ss := by
    by_contra hz
    rw [Nat.eq_zero_of_not_pos hz] at hss
    omega
  have hpiece : x / ss < P := by
    rw [Nat.div_lt_iff_lt_mul hpos]
    omega
  have hmod : ∀ x, x % P < P := fun x => Nat.mod_lt _ (by omega)
  -- the byte's piece belongs to the rank `x / ss` after the root
  have howner := hI.has r hr ((r + P - (x / ss + root) % P) % P) (by have := hmod (r + P - (x / ss + root) % P); omega)
  rw [down_dist hr (hmod _), rel_ofRel hroot hpiece] at howner
  refine howner x (Nat.div_mul_le_self x ss) ?_
  have := Nat.lt_mul_div_succ x hpos
  rw [Nat.mul_comm] at this
  omega

theorem bcastScatterRingAllgather_together (hP : 2 ≤ P) (hroot : root < P)
    (hn : ∀ r, r < P → n ≤ (m r b).length) :
    Together P (fun r => bcastScatterRingAllgather P r (m r) b n root)
      (fun r => .ret (bcasted m b n root r)) := by
  have hss := le_mul_ceil hP n
  generalize hs : (n + P - 1) / P = ss at hss
  obtain ⟨M, hM, hscatter⟩ := bcastScatter_together (b := b) hP hroot hn hss
  have hinit : RingHas P m b n ss root 0 M := by
    refine ⟨fun r hr => (hM r hr).1, fun r hr u hu => ?_⟩
    obtain rfl : u = 0 := by omega
    rw [Nat.sub_zero, Nat.add_mod_right, Nat.mod_eq_of_lt hr]
    exact (hM r hr).2
  obtain ⟨M', hM', hring⟩ := Together.ascend (P := P) (n := P - 1) (bcastRingAt P b n ss root)
    (RingHas P m b n ss root)
    (fun t M ht hI => ⟨_, hI.step hroot hn, bcastRingAt_step hP hroot hn ht hI⟩) hinit
  have hstart : Together P (fun r => bcastScatterRingAllgather P r (m r) b n root)
      (bcastRingAt P b n ss root 0 M) := by
    refine Together.trans (.of_eq fun r hr => ?_) ((hscatter.bind fun r x =>
      bcastRingFrom P r b n ss root 1 r ((P + r - 1) % P) x.2).trans (.of_eq fun r hr => ?_))
    · simp only [bcastScatterRingAllgather, hs]
    · rw [bcastRingAt, Prog.ret_bind, Nat.sub_zero, Nat.add_mod_right, Nat.mod_eq_of_lt hr,
        Nat.add_comm P]
  refine hstart.trans (hring.trans (.of_eq fun r hr => ?_))
  rw [bcastRingAt, bcastRingFrom, if_neg (by omega)]
  congr 1
  exact eq_bcasted (hn r hr) (hn root hroot) (hM'.keeps r hr) (hM'.all hP hroot hss hr)

/-! ## The broadcast -/

/-- The ranks need not spell the `n` bytes in the same way. -/
theorem mpiBcast_together {n : Nat} {count dt : Nat → Nat} (hP : 2 ≤ P) (hroot : root < P)
    (hdt : ∀ r, r < P → bytesOf (count r) (dt r) = some n) (hn : ∀ r, r < P → n ≤ (m r b).length) :
    Together P (fun r => mpiBcast P r (m r) b (count r) (dt r) root)
      (fun r => .ret (bcasted m b n root r)) := by
  have hP1 : ¬ P ≤ 1 := by omega
  have hcode : ∀ r, r < P → mpiBcast P r (m r) b (count r) (dt r) root =
      if n < kBcastShortMsg ∨ P < kBcastMinProcs then bcastBinomial P r (m r) b n root
      else if n < kBcastLongMsg ∧ isPof2 P then bcastScatterRdAllgather P r (m r) b n root
      else bcastScatterRingAllgather P r (m r) b n root := fun r hr => by
    obtain ⟨ext, hext, hmul⟩ := Option.map_eq_some_iff.mp (hdt r hr)
    simp only [mpiBcast, if_neg hP1, hext, access_some, Prog.ret_bind, hmul]
  refine .trans (.of_eq hcode) ?_
  split
  · exact bcastBinomial_together hP hroot hn
  · split
    · next h =>
      obtain ⟨K, hK⟩ := isPof2_iff.mp h.2
      exact bcastScatterRdAllgather_together hP hK hroot hn
    · exact bcastScatterRingAllgather_together hP hroot hn

end

/-- **MPI_Bcast.** Whatever the interleaving, every rank ends with the root's
buffer in its own, nothing else changed, and nothing in flight. The scatter on
its own is matched as well: a rank posts a receive exactly when its parent sends. -/
theorem mpiBcast_completes {P root count dt ext : Nat} {m : Nat → Mem} {b : BufId} (hP : 2 ≤ P)
    (hroot : root < P) (hdt : Sized dt ext)
    (hlen : ∀ r, r < P → (m r b).length = count * ext) :
    Completes (world P (fun r => mpiBcast P r (m r) b count dt root) m)
        (fun r => if r < P then Function.update (m r) b (m root b) else m r) ∧
      ∃ f, Completes (world P (fun r => bcastScatter P r (m r) b (count * ext)
        ((count * ext + P - 1) / P) root) fun r => (0, m r)) f := by
  have hn : ∀ r, r < P → count * ext ≤ (m r b).length := fun r hr => (hlen r hr).ge
  constructor
  · have h := (mpiBcast_together hP hroot (fun _ _ => congrArg _ hdt) hn).completes (z := m)
    have hfin : (fun r => if r < P then bcasted m b (count * ext) root r else m r)
        = fun r => if r < P then Function.update (m r) b (m root b) else m r := by
      funext r
      split
      · next hr =>
        unfold bcasted Mem.put
        congr 1
        rw [← hlen root hroot, slice, List.drop_zero, List.take_length, splice, List.take_zero,
          List.nil_append, Nat.zero_add, hlen root hroot, ← hlen r hr, List.drop_length,
          List.append_nil]
      · rfl
    rwa [hfin] at h
  · obtain ⟨M, -, h⟩ := bcastScatter_together (b := b) hP hroot hn (le_mul_ceil hP _)
    exact ⟨_, h.completes⟩

theorem mpiBcast_completes_two_ranks :
    Completes (world 2 (fun r => mpiBcast 2 r (fun _ => [UInt8.ofNat r]) (.user 0) 1 8 1)
        fun r _ => [UInt8.ofNat r])
      (fun r => if r < 2 then Function.update (fun _ => [UInt8.ofNat r]) (.user 0) [1]
        else fun _ => [UInt8.ofNat r]) :=
  (@mpiBcast_completes 2 1 1 8 1 (fun r _ => [UInt8.ofNat r]) (.user 0) (by decide) (by decide) rfl
    (fun _ _ => rfl)).1

end Pimid.Mpi
