import Pimid.Mpi.Halving

/-!
# The survivors of a fold

A reduction on `P` ranks first folds the ranks that are too many for a power of
two; the `2 ^ K` survivors get new ranks and the rest wait. A `Team` is that
numbering. Its members pair up across a bit of their new ranks, and `swap` is the
exchange in which both partners move the same stretch of the vector at both ends.

`halving_together` is the reduce-scatter of a team: afterwards each member has, in
the pieces that are its own, the combination over the whole team.
-/

namespace Pimid.Mpi

open Pimid.Net

structure Team (P K : Nat) where
  has : Nat → Bool
  newOf : Nat → Nat
  realOf : Nat → Nat
  newOf_lt : ∀ r, r < P → has r = true → newOf r < 2 ^ K
  realOf_newOf : ∀ r, r < P → has r = true → realOf (newOf r) = r
  realOf_lt : ∀ k, k < 2 ^ K → realOf k < P
  has_realOf : ∀ k, k < 2 ^ K → has (realOf k) = true
  newOf_realOf : ∀ k, k < 2 ^ K → newOf (realOf k) = k

namespace Team

variable {P K : Nat} (T : Team P K) {i r : Nat}

/-- The member that differs from `r` in bit `i`. -/
def partner (i r : Nat) : Nat := T.realOf (T.newOf r ^^^ 2 ^ i)

section

variable (hi : i < K) (hr : r < P) (h : T.has r = true)

include hi hr h

theorem xor_lt : T.newOf r ^^^ 2 ^ i < 2 ^ K :=
  Nat.xor_lt_two_pow (T.newOf_lt r hr h) (Nat.pow_lt_pow_right (by omega) hi)

theorem partner_lt : T.partner i r < P := T.realOf_lt _ (T.xor_lt hi hr h)

theorem has_partner : T.has (T.partner i r) = true := T.has_realOf _ (T.xor_lt hi hr h)

theorem newOf_partner : T.newOf (T.partner i r) = T.newOf r ^^^ 2 ^ i :=
  T.newOf_realOf _ (T.xor_lt hi hr h)

theorem partner_partner : T.partner i (T.partner i r) = r := by
  rw [partner, T.newOf_partner hi hr h, Nat.xor_xor_cancel_right, T.realOf_newOf r hr h]

end

/-- **A swap.** Each member receives the stretch `[off, off + len)` of its partner's
vector at the same place of `rb`, and sends its partner that partner's stretch. -/
theorem swap {α : Type} (hP : 2 ≤ P) (hi : i < K) (M : Nat → Mem) (acc rb : Nat → BufId)
    (off len : Nat → Nat) (k : Nat → Nat × Mem → Rank α) (q : Nat → Rank α)
    (hread : ∀ r, r < P → T.has r = true →
      Fits (M r (acc r)) (off (T.partner i r)) (len (T.partner i r)))
    (hwrite : ∀ r, r < P → T.has r = true → Fits (M r (rb r)) (off r) (len r))
    (hapart : ∀ r, r < P → T.has r = true → acc r ≠ rb r ∨
      Apart (off (T.partner i r)) (len (T.partner i r)) (off r) (len r)) :
    Together P
      (fun r => if T.has r then xchgBytes P (M r) (acc r) (off (T.partner i r)) (len (T.partner i r))
        (T.partner i r) (rb r) (off r) (len r) (T.partner i r) >>= k r else q r)
      (fun r => if T.has r then k r (len r, (M r).put (rb r) (off r)
        (slice (M (T.partner i r) (acc (T.partner i r))) (off r) (len r))) else q r) := by
  refine Together.exchange (m := M) (fun r => T.has r = true) hP
    (fun r => ⟨T.partner i r, acc r, off (T.partner i r), len (T.partner i r)⟩)
    (fun r => ⟨T.partner i r, rb r, off r, len r⟩) k ?_ ?_ hread ?_ ?_ ?_ ?_ ?_ ?_
  · exact fun r hr h =>
      ⟨T.partner_lt hi hr h, T.has_partner hi hr h, T.partner_partner hi hr h⟩
  · exact fun r hr h =>
      ⟨T.partner_lt hi hr h, T.has_partner hi hr h, T.partner_partner hi hr h⟩
  · intro r hr h
    dsimp only
    rw [T.partner_partner hi hr h]
    exact hwrite r hr h
  · intro r hr h
    dsimp only
    rw [T.partner_partner hi hr h]
  · intro r hr h
    dsimp only
    rw [T.partner_partner hi hr h]
    exact hapart r hr h
  · intro r hr h
    rw [if_pos h]
  · intro r hr h
    simp only [Tx.data]
    rw [if_pos h, T.partner_partner hi hr h]
  · intro r hr h
    rw [if_neg h, if_neg h]

end Team

/-! ## The vector a reduction works on -/

/-- `M` is `m` after work on the first `n` bytes of `acc`, with `tmp` as scratch. -/
structure Work (acc : BufId) (n : Nat) (m M : Mem) : Prop where
  other : ∀ b, b ≠ acc → b ≠ .scratch 0 → M b = m b
  length : ∀ b, (M b).length = (m b).length
  out : ∀ x, n ≤ x → (M acc)[x]? = (m acc)[x]?

namespace Work

variable {acc : BufId} {n : Nat} {m M M' : Mem}

theorem refl : Work acc n m m := ⟨fun _ _ _ => rfl, fun _ => rfl, fun _ _ => rfl⟩

theorem trans (h : Work acc n m M) (h' : Work acc n M M') : Work acc n m M' :=
  ⟨fun b h₁ h₂ => (h'.other b h₁ h₂).trans (h.other b h₁ h₂),
    fun b => (h'.length b).trans (h.length b), fun x hx => (h'.out x hx).trans (h.out x hx)⟩

theorem of_acc {A : Nat → Prop} (h : Keeps acc A m M) (hA : ∀ x, A x → x < n) : Work acc n m M :=
  ⟨fun b h₁ _ => h.other b h₁, h.length, fun x hx => h.out x fun ha => by
    have := hA x ha
    omega⟩

theorem of_tmp {A : Nat → Prop} (hacc : acc ≠ .scratch 0) (h : Keeps (.scratch 0) A m M) :
    Work acc n m M :=
  ⟨fun b _ h₂ => h.other b h₂, h.length, fun x _ => by rw [h.other acc hacc]⟩

end Work

/-- Element `x` of a buffer. -/
def elt (ext : Nat) (l : Bytes) (x : Nat) : Bytes := slice l (x * ext) ext

section

variable {m : Mem} {b : BufId} {l : Bytes} {lo cnt ext x : Nat}

theorem fits_elts {count : Nat} (hlen : count * ext ≤ l.length) (h : lo + cnt ≤ count) :
    Fits l (lo * ext) (cnt * ext) := by
  have := Nat.mul_le_mul_right ext h
  rw [Nat.add_mul] at this
  exact .of_le (by omega)

theorem elt_put_in (hf : Fits (m b) (lo * ext) (cnt * ext)) (hl : Fits l (lo * ext) (cnt * ext))
    (h : lo ≤ x) (h' : x < lo + cnt) :
    elt ext (m.put b (lo * ext) (slice l (lo * ext) (cnt * ext)) b) x = elt ext l x := by
  have h₁ := Nat.mul_le_mul_right ext h
  have h₂ := mul_add_le_mul h' ext
  rw [Nat.add_mul] at h₂
  exact (holds_put hf hl).slice_eq (.inr ⟨h₁, h₂⟩)

theorem keeps_elt {A : Nat → Prop} {M : Mem} (hk : Keeps b A m M)
    (hA : ∀ y, A y → lo * ext ≤ y ∧ y < lo * ext + cnt * ext) (h : x < lo ∨ lo + cnt ≤ x) :
    elt ext (M b) x = elt ext (m b) x := by
  refine hk.slice_eq fun y h₁ h₂ hy => ?_
  have := hA y hy
  rcases h with h | h
  · have := mul_add_le_mul h ext
    omega
  · have := Nat.mul_le_mul_right ext h
    rw [Nat.add_mul] at this
    omega

theorem elt_put_out (hf : Fits (m b) (lo * ext) (cnt * ext)) (hl : Fits l (lo * ext) (cnt * ext))
    (h : x < lo ∨ lo + cnt ≤ x) :
    elt ext (m.put b (lo * ext) (slice l (lo * ext) (cnt * ext)) b) x = elt ext (m b) x :=
  keeps_elt (A := fun y => lo * ext ≤ y ∧ y < lo * ext + cnt * ext)
    (keeps_put_slice hf hl fun _ h₁ h₂ => ⟨h₁, h₂⟩) (fun _ h => h) h

theorem elt_slice {count : Nat} (h : x < count) :
    elt ext (slice l 0 (count * ext)) x = elt ext l x := by
  rw [elt, slice_slice (mul_add_le_mul h ext), Nat.zero_add, ← elt]

theorem slice_of_elt {count : Nat} {l' : Bytes} (h : ∀ x, x < count → elt ext l x = elt ext l' x) :
    slice l 0 (count * ext) = slice l' 0 (count * ext) :=
  (holds_of_blocks h).slice_eq (.inr ⟨Nat.le_refl 0, by omega⟩)

/-- Load a rank's own vector, unless it works in place. -/
def copyIn (m : Mem) (acc : BufId) (sendbuf : Arg) (n : Nat) : Option Mem :=
  match sendbuf with
  | .buf b => m.copy acc 0 b 0 n
  | _ => some m

theorem copyIn_spec {acc : BufId} {sendbuf : Arg} {n : Nat} (hroom : n ≤ (m acc).length)
    (hsend : ∀ b, sendbuf = .buf b → Fits (m b) 0 n) :
    ∃ M, copyIn m acc sendbuf n = some M ∧ Keeps acc (· < n) m M ∧
      slice (M acc) 0 n = ownBlock m sendbuf acc 0 n := by
  have hf : Fits (m acc) 0 n := .of_le (by omega)
  cases sendbuf with
  | null => exact ⟨m, rfl, .refl .., rfl⟩
  | inPlace => exact ⟨m, rfl, .refl .., rfl⟩
  | buf b =>
    have hb := hsend b rfl
    have hput := slice_put_self (m := m) (b := acc) (o := 0) (d := slice (m b) 0 n)
      (by rw [length_slice hb]; exact hf)
    rw [length_slice hb] at hput
    exact ⟨_, Mem.copy_eq hb hf, keeps_put_slice hf hb fun x _ h => by omega, hput⟩

end

/-- The handles of a reduction name an operation on elements of type `ty`. -/
structure RedOk (c : RedArgs) (ty : RedType) (f : Bytes → Bytes → Bytes) : Prop where
  type : redType c.dt = some ty
  op : ∃ o, redOp c.op = some o ∧ combine c.fp ty o = some f

/-- The vectors of a reduction: `count` elements at `acc`, and as much scratch. -/
structure Room (P count ext : Nat) (acc : Nat → BufId) (m : Nat → Mem) : Prop where
  ne : ∀ r, r < P → acc r ≠ .scratch 0
  acc : ∀ r, r < P → count * ext ≤ (m r (acc r)).length
  tmp : ∀ r, r < P → count * ext ≤ (m r (.scratch 0)).length

theorem Room.of_work {P count ext n : Nat} {acc : Nat → BufId} {m M : Nat → Mem}
    (h : Room P count ext acc m) (hw : ∀ r, r < P → Work (acc r) n (m r) (M r)) :
    Room P count ext acc M :=
  ⟨h.ne, fun r hr => by rw [(hw r hr).length]; exact h.acc r hr,
    fun r hr => by rw [(hw r hr).length]; exact h.tmp r hr⟩

/-- **Receive and combine.** The elements `[lo, lo + cnt)` of `l` arrive in the scratch
buffer and are combined into those of `acc`. -/
theorem recv_reduce {c : RedArgs} {ty : RedType} {f : Bytes → Bytes → Bytes} (hc : RedOk c ty f)
    {m : Mem} {acc : BufId} (hne : acc ≠ .scratch 0) {l : Bytes} {lo cnt count : Nat}
    (hcnt : lo + cnt ≤ count) (hacc : count * ty.size ≤ (m acc).length)
    (htmp : count * ty.size ≤ (m (.scratch 0)).length) (hl : count * ty.size ≤ l.length) :
    ∃ M, reduceLocal c.fp (m.put (.scratch 0) (lo * ty.size) (slice l (lo * ty.size) (cnt * ty.size)))
        (.scratch 0) (lo * ty.size) acc (lo * ty.size) cnt c.dt c.op = some M ∧
      Work acc (count * ty.size) m M ∧
      ∀ x, lo ≤ x → x < lo + cnt →
        elt ty.size (M acc) x = f (elt ty.size l x) (elt ty.size (m acc) x) := by
  obtain ⟨o, hop, hf⟩ := hc.op
  have hft := fits_elts htmp hcnt
  have hfa := fits_elts hacc hcnt
  have hfl := fits_elts hl hcnt
  have hput : Keeps (.scratch 0) (fun _ => True) m
      (m.put (.scratch 0) (lo * ty.size) (slice l (lo * ty.size) (cnt * ty.size))) :=
    keeps_put_slice hft hfl fun _ _ _ => trivial
  obtain ⟨M, hM, hk, he⟩ := reduceLocal_spec (n := cnt) hop hc.type hf hne.symm (hput.fits hft)
    (hput.fits hfa)
  have hend := Nat.mul_le_mul_right ty.size hcnt
  rw [Nat.add_mul] at hend
  refine ⟨M, hM, (Work.of_tmp hne hput).trans (.of_acc hk fun x hx => by omega), fun x h₁ h₂ => ?_⟩
  have hx := he (x - lo) (by omega)
  have hoff : lo * ty.size + (x - lo) * ty.size = x * ty.size := by
    rw [← Nat.add_mul, Nat.add_sub_cancel' h₁]
  rw [hoff, hput.other acc hne] at hx
  rw [elt, hx, ← elt, ← elt, elt_put_in hft hfl h₁ h₂]

/-! ## Combining across a bit -/

section

variable {P K count : Nat} {c : RedArgs} {ty : RedType} {f : Bytes → Bytes → Bytes}
  {acc : Nat → BufId} {m : Nat → Mem}

/-- The combination of the vectors of `k`'s block of `2 ^ i` members, at element `x`. -/
def teamValue (T : Team P K) (f : Bytes → Bytes → Bytes) (ext : Nat) (acc : Nat → BufId)
    (m : Nat → Mem) (i k x : Nat) : Bytes :=
  butterfly f (fun k => elt ext (m (T.realOf k) (acc (T.realOf k))) x) i k

/-- Member `k` has the elements `V k` in `[lo k, hi k)`. -/
structure TeamHas (T : Team P K) (ext count : Nat) (acc : Nat → BufId) (m : Nat → Mem)
    (lo hi : Nat → Nat) (V : Nat → Nat → Bytes) (M : Nat → Mem) : Prop where
  work : ∀ r, r < P → Work (acc r) (count * ext) (m r) (M r)
  rest : ∀ r, r < P → T.has r = false → M r = m r
  value : ∀ r, r < P → T.has r = true → ∀ x, lo (T.newOf r) ≤ x → x < hi (T.newOf r) →
    elt ext (M r (acc r)) x = V (T.newOf r) x

/-- Member `k` has the combination of its block of `2 ^ i` in `[lo k, hi k)`. -/
abbrev Combined (T : Team P K) (f : Bytes → Bytes → Bytes) (ext count : Nat) (acc : Nat → BufId)
    (m : Nat → Mem) (lo hi : Nat → Nat) (i : Nat) (M : Nat → Mem) : Prop :=
  TeamHas T ext count acc m lo hi (teamValue T f ext acc m i) M

theorem Combined.start (T : Team P K) (f : Bytes → Bytes → Bytes) (ext count : Nat)
    (acc : Nat → BufId) (m : Nat → Mem) (lo hi : Nat → Nat) :
    Combined T f ext count acc m lo hi 0 m :=
  ⟨fun _ _ => .refl, fun _ _ _ => rfl, fun r hr h x _ _ => by
    rw [teamValue, butterfly, T.realOf_newOf r hr h]⟩

/-- **A combining step.** Partners swap what the other one keeps, and combine. -/
theorem Combined.step {α : Type} {T : Team P K} (hP : 2 ≤ P) (hc : RedOk c ty f)
    (hroom : Room P count ty.size acc m) {i : Nat} (hi : i < K) {lo hi' : Nat → Nat}
    (lo₁ hi₁ : Nat → Nat) (hrange : ∀ k, lo₁ k ≤ hi₁ k ∧ hi₁ k ≤ count)
    (hown : ∀ k, lo k ≤ lo₁ k ∧ hi₁ k ≤ hi' k)
    (hother : ∀ k, lo (k ^^^ 2 ^ i) ≤ lo₁ k ∧ hi₁ k ≤ hi' (k ^^^ 2 ^ i)) {M : Nat → Mem}
    (hI : Combined T f ty.size count acc m lo hi' i M) (cont : Nat → Mem → Rank α)
    (q : Nat → Rank α) :
    ∃ M', Combined T f ty.size count acc m lo₁ hi₁ (i + 1) M' ∧
      Together P
        (fun r => if T.has r then
          (xchgBytes P (M r) (acc r) (lo₁ (T.newOf r ^^^ 2 ^ i) * ty.size)
            ((hi₁ (T.newOf r ^^^ 2 ^ i) - lo₁ (T.newOf r ^^^ 2 ^ i)) * ty.size)
            (T.realOf (T.newOf r ^^^ 2 ^ i)) (.scratch 0) (lo₁ (T.newOf r) * ty.size)
            ((hi₁ (T.newOf r) - lo₁ (T.newOf r)) * ty.size) (T.realOf (T.newOf r ^^^ 2 ^ i))
          >>= fun x => access (reduceLocal c.fp x.2 (.scratch 0) (lo₁ (T.newOf r) * ty.size) (acc r)
            (lo₁ (T.newOf r) * ty.size) (hi₁ (T.newOf r) - lo₁ (T.newOf r)) c.dt c.op)
          >>= cont r) else q r)
        (fun r => if T.has r then cont r (M' r) else q r) := by
  have hroom' := hroom.of_work hI.work
  have hle : ∀ k, lo₁ k + (hi₁ k - lo₁ k) = hi₁ k := fun k => Nat.add_sub_cancel' (hrange k).1
  have hcnt : ∀ k, lo₁ k + (hi₁ k - lo₁ k) ≤ count := fun k => by rw [hle]; exact (hrange k).2
  have hred := fun r (hr : r < P) (h : T.has r = true) => recv_reduce hc (hroom'.ne r hr)
    (hcnt (T.newOf r)) (hroom'.acc r hr) (hroom'.tmp r hr)
    (hroom'.acc _ (T.partner_lt hi hr h))
  choose! M₁ hM₁ hwork hin using hred
  refine ⟨fun r => if T.has r then M₁ r else M r, ⟨fun r hr => ?_, fun r hr h => ?_,
    fun r hr h x hlo hhi => ?_⟩, ?_⟩
  · split
    · next h => exact (hI.work r hr).trans (hwork r hr h)
    · exact hI.work r hr
  · rw [if_neg (by simp [h]), hI.rest r hr h]
  · have hnew := T.newOf_partner hi hr h
    have h₁ := hown (T.newOf r)
    have h₂ := hother (T.newOf r)
    rw [if_pos h, hin r hr h x hlo (by rw [hle]; exact hhi),
      hI.value r hr h x (by omega) (by omega),
      hI.value _ (T.partner_lt hi hr h) (T.has_partner hi hr h) x (by rw [hnew]; omega)
        (by rw [hnew]; omega), hnew]
    rfl
  · refine .trans (.of_eq fun r hr => ?_) (.trans (T.swap hP hi M acc
      (fun _ => .scratch 0) (fun r => lo₁ (T.newOf r) * ty.size)
      (fun r => (hi₁ (T.newOf r) - lo₁ (T.newOf r)) * ty.size)
      (fun r x => access (reduceLocal c.fp x.2 (.scratch 0) (lo₁ (T.newOf r) * ty.size)
          (acc r) (lo₁ (T.newOf r) * ty.size) (hi₁ (T.newOf r) - lo₁ (T.newOf r)) c.dt c.op)
        >>= cont r) q
      (fun r hr h => fits_elts (hroom'.acc r hr) (hcnt _))
      (fun r hr h => fits_elts (hroom'.tmp r hr) (hcnt _))
      (fun r hr h => .inl (hroom'.ne r hr))) (.of_eq fun r hr => ?_))
    · split
      · next h =>
        rw [T.newOf_partner hi hr h]
        rfl
      · rfl
    · split
      · next h =>
        rw [hM₁ r hr h, access_some, Prog.ret_bind]
        simp only [h, if_true]
      · rfl

/-- The members of a team whose operation commutes agree. -/
theorem teamValue_congr (T : Team P K) (hcomm : Commutes f) (ext : Nat) {k : Nat} (hk : k < 2 ^ K)
    (x : Nat) : teamValue T f ext acc m K k x = teamValue T f ext acc m K 0 x :=
  butterfly_congr hcomm (by rw [Nat.div_eq_of_lt hk, Nat.zero_div])

/-! ## The fold -/

/-- How the ranks that are too many are folded: a `paired` rank and its mate share a
new rank, and one of the two is a member. -/
structure Pairing (T : Team P K) where
  paired : Nat → Bool
  mate : Nat → Nat
  newOf_lt : ∀ r, r < P → T.newOf r < 2 ^ K
  mate_lt : ∀ r, r < P → paired r = true → mate r < P
  paired_mate : ∀ r, r < P → paired r = true → paired (mate r) = true
  mate_mate : ∀ r, r < P → paired r = true → mate (mate r) = r
  has_mate : ∀ r, r < P → paired r = true → T.has (mate r) = !T.has r
  newOf_mate : ∀ r, r < P → paired r = true → T.newOf (mate r) = T.newOf r
  class_eq : ∀ r s, r < P → s < P → T.newOf s = T.newOf r → s = r ∨ paired r = true ∧ s = mate r
  has_alone : ∀ r, r < P → paired r = false → T.has r = true

/-- **The fold.** Each paired rank that is no member sends its vector to its mate,
which combines it with its own. -/
theorem fold_together {α : Type} {T : Team P K} (G : Pairing T) (hP : 2 ≤ P) (hc : RedOk c ty f)
    (hroom : Room P count ty.size acc m) (cont : Nat → Mem → Rank α) (q : Nat → Rank α) :
    ∃ M : Nat → Mem, (∀ r, r < P → Work (acc r) (count * ty.size) (m r) (M r)) ∧
      (∀ r, r < P → T.has r = false → M r = m r) ∧
      (∀ k, k < 2 ^ K → ∀ x, x < count → Reduces f (fun s => elt ty.size (m s (acc s)) x)
        ((Finset.range P).filter fun r => T.newOf r = k)
        (elt ty.size (M (T.realOf k) (acc (T.realOf k))) x)) ∧
      Together P
        (fun r => if G.paired r then
            if T.has r then
              recvBytes P (m r) (.scratch 0) 0 (count * ty.size) (G.mate r) >>= fun x =>
                access (reduceLocal c.fp x.2 (.scratch 0) 0 (acc r) 0 count c.dt c.op) >>= cont r
            else sendBytes P (m r) (acc r) 0 (count * ty.size) (G.mate r) 0 >>= fun _ => q r
          else cont r (m r))
        (fun r => if T.has r then cont r (M r) else q r) := by
  have hred := fun r (hr : r < P) (hp : G.paired r = true) =>
    recv_reduce hc (hroom.ne r hr) (show 0 + count ≤ count by omega)
      (hroom.acc r hr) (hroom.tmp r hr) (hroom.acc _ (G.mate_lt r hr hp))
  simp only [Nat.zero_mul, Nat.zero_le, Nat.zero_add, true_imp_iff] at hred
  choose! M₁ hM₁ hwork hval using hred
  let M : Nat → Mem := fun r => if G.paired r && T.has r then M₁ r else m r
  have hM_in : ∀ r, G.paired r = true → T.has r = true → M r = M₁ r := fun r h h' => by
    simp only [M, h, h', Bool.and_self, if_true]
  have hM_alone : ∀ r, G.paired r = false → M r = m r := fun r h => by
    simp only [M, h, Bool.false_and, Bool.false_eq_true, if_false]
  have hM_out : ∀ r, T.has r = false → M r = m r := fun r h => by
    simp only [M, h, Bool.and_false, Bool.false_eq_true, if_false]
  refine ⟨M, fun r hr => ?_, fun r _ h => hM_out r h, fun k hk x hx => ?_, ?_⟩
  · cases hp : G.paired r
    · rw [hM_alone r hp]
      exact .refl
    · cases hh : T.has r
      · rw [hM_out r hh]
        exact .refl
      · rw [hM_in r hp hh]
        exact hwork r hr hp
  · have hr := T.realOf_lt k hk
    have hh := T.has_realOf k hk
    have hnew := T.newOf_realOf k hk
    generalize T.realOf k = r at hr hh hnew
    subst hnew
    cases hp : G.paired r
    · rw [hM_alone r hp]
      refine (Reduces.leaf r).congr fun s => ?_
      rw [Finset.mem_singleton, Finset.mem_filter, Finset.mem_range]
      constructor
      · rintro rfl
        exact ⟨hr, rfl⟩
      · rintro ⟨hs, hsr⟩
        rcases G.class_eq r s hr hs hsr with h | ⟨h, -⟩
        · exact h
        · rw [hp] at h
          cases h
    · have hmate := G.has_mate r hr hp
      rw [hh] at hmate
      rw [hM_in r hp hh, hval r hr hp x hx]
      refine (Reduces.leaf (G.mate r)).join (Reduces.leaf r) (fun s hs hs' => ?_) fun s => ?_
      · rw [Finset.mem_singleton] at hs hs'
        rw [← hs, hs', hh] at hmate
        cases hmate
      · rw [Finset.mem_singleton, Finset.mem_singleton, Finset.mem_filter, Finset.mem_range]
        constructor
        · rintro ⟨hs, hsr⟩
          rcases G.class_eq r s hr hs hsr with h | ⟨-, h⟩
          · exact .inr h
          · exact .inl h
        · rintro (rfl | rfl)
          · exact ⟨G.mate_lt r hr hp, G.newOf_mate r hr hp⟩
          · exact ⟨hr, rfl⟩
  · refine Together.deliver (m := m) (fun r => G.paired r = true ∧ T.has r = false)
      (fun r => G.paired r = true ∧ T.has r = true) hP
      (fun r => ⟨G.mate r, acc r, 0, count * ty.size⟩)
      (fun r => ⟨G.mate r, .scratch 0, 0, count * ty.size⟩)
      (fun r x => access (reduceLocal c.fp x.2 (.scratch 0) 0 (acc r) 0 count c.dt c.op) >>= cont r)
      ?_ ?_ ?_ ?_ ?_ ?_ ?_ ?_ ?_ ?_
    · rintro r hr ⟨hp, hh⟩
      exact ⟨G.mate_lt r hr hp, ⟨G.paired_mate r hr hp, by rw [G.has_mate r hr hp, hh]; rfl⟩,
        G.mate_mate r hr hp⟩
    · rintro r hr ⟨hp, hh⟩
      exact ⟨G.mate_lt r hr hp, ⟨G.paired_mate r hr hp, by rw [G.has_mate r hr hp, hh]; rfl⟩,
        G.mate_mate r hr hp⟩
    · rintro r hr ⟨-, hh⟩ ⟨-, hh'⟩
      rw [hh] at hh'
      cases hh'
    · rintro r hr -
      exact .of_le (by dsimp only; have := hroom.acc r hr; omega)
    · rintro r hr -
      exact .of_le (by dsimp only; have := hroom.tmp r hr; omega)
    · exact fun _ _ _ => Nat.le_refl _
    · rintro r hr ⟨hp, hh⟩
      simp only [hp, hh, if_true, Bool.false_eq_true, if_false]
    · rintro r hr ⟨hp, hh⟩
      simp only [hp, hh, if_true]
    · rintro r hr ⟨hp, hh⟩
      simp only [hh, if_true, Tx.data, hM_in r hp hh]
      rw [hM₁ r hr hp, access_some, Prog.ret_bind]
    · intro r hr hs hr'
      have hp : G.paired r = false := by
        cases hp : G.paired r
        · rfl
        · cases hh : T.has r
          · exact absurd ⟨hp, hh⟩ hs
          · exact absurd ⟨hp, hh⟩ hr'
      simp only [hp, G.has_alone r hr hp, hM_alone r hp, if_true, Bool.false_eq_true, if_false]

/-- `P` is at least `2 ^ K` and less than twice that. -/
structure Pof2 (P K : Nat) : Prop where
  le : 2 ^ K ≤ P
  lt : P < 2 * 2 ^ K

theorem pof2_of_floor {P : Nat} (hP : 1 ≤ P) : ∃ K, pof2Floor P = 2 ^ K ∧ Pof2 P K := by
  obtain ⟨K, h, hle, hlt⟩ := pof2Floor_spec hP
  exact ⟨K, h, hle, by rw [Nat.pow_succ] at hlt; omega⟩

/-- The first `2 * rem` ranks fold pairwise, and the rank of parity `b` survives. -/
def foldTeam (h : Pof2 P K) (b : Nat) (hb : b < 2) : Team P K where
  has r := decide (¬ (r < 2 * (P - 2 ^ K) ∧ r % 2 ≠ b))
  newOf r := if r < 2 * (P - 2 ^ K) then r / 2 else r - (P - 2 ^ K)
  realOf nr := if nr < P - 2 ^ K then nr * 2 + b else nr + (P - 2 ^ K)
  newOf_lt r hr hhas := by
    have := h.le
    have := h.lt
    split <;> omega
  realOf_newOf r hr hhas := by
    have := h.le
    rw [decide_eq_true_eq] at hhas
    split <;> split <;> omega
  realOf_lt k hk := by
    have := h.le
    have := h.lt
    split <;> omega
  has_realOf k hk := by
    rw [decide_eq_true_eq]
    split <;> omega
  newOf_realOf k hk := by
    split <;> split <;> omega

theorem has_foldTeam_eq_false (h : Pof2 P K) {b r : Nat} (hb : b < 2) :
    (foldTeam h b hb).has r = false ↔ r < 2 * (P - 2 ^ K) ∧ r % 2 ≠ b := by
  simp only [foldTeam, decide_eq_false_iff_not, not_not]

def foldPairing (h : Pof2 P K) (b : Nat) (hb : b < 2) : Pairing (foldTeam h b hb) where
  paired r := decide (r < 2 * (P - 2 ^ K))
  mate r := if r % 2 = 0 then r + 1 else r - 1
  newOf_lt r hr := by
    have := h.le
    have := h.lt
    simp only [foldTeam]
    split <;> omega
  mate_lt r hr hp := by
    have := h.lt
    rw [decide_eq_true_eq] at hp
    split <;> omega
  paired_mate r hr hp := by
    rw [decide_eq_true_eq] at hp ⊢
    split <;> omega
  mate_mate r hr hp := by
    split <;> split <;> omega
  has_mate r hr hp := by
    rw [decide_eq_true_eq] at hp
    simp only [foldTeam]
    rw [← decide_not, decide_eq_decide]
    split <;> omega
  newOf_mate r hr hp := by
    rw [decide_eq_true_eq] at hp
    simp only [foldTeam]
    split <;> split <;> omega
  class_eq r s hr hs he := by
    have := h.le
    simp only [foldTeam] at he
    rw [decide_eq_true_eq]
    split at he <;> split at he <;> split <;> omega
  has_alone r hr hp := by
    rw [decide_eq_false_iff_not] at hp
    simp only [foldTeam]
    rw [decide_eq_true_eq]
    omega

/-- **After the fold** the combination over the team is one over all ranks. -/
theorem reduces_teamValue {T : Team P K} (G : Pairing T) {M : Nat → Mem} {ext x : Nat}
    (h : ∀ k, k < 2 ^ K → Reduces f (fun s => elt ext (m s (acc s)) x)
      ((Finset.range P).filter fun r => T.newOf r = k) (elt ext (M (T.realOf k) (acc (T.realOf k))) x))
    {k : Nat} (hk : k < 2 ^ K) :
    Reduces f (fun s => elt ext (m s (acc s)) x) (Finset.range P) (teamValue T f ext acc M K k x) := by
  refine (Reduces.butterfly h (Nat.le_refl K) hk).congr fun r => ?_
  rw [Finset.mem_filter, Finset.mem_range, Nat.div_eq_of_lt hk]
  exact ⟨fun h => h.1, fun h => ⟨h, Nat.div_eq_of_lt (G.newOf_lt r h)⟩⟩

/-! ## Recursive halving -/

theorem halvingFrom_step {A tmp : BufId} {realOf : Nat → Nat} {ext k i : Nat} (hi : i < K) (M : Mem) :
    halvingFrom c P A tmp k (2 ^ K) (rsPieces count (2 ^ K)) ext realOf i (first K k i) (first K k i)
        (lastAt K k i) M
      = (xchgBytes P M A (eltLo count K (k ^^^ 2 ^ i) (i + 1) * ext)
          ((eltHi count K (k ^^^ 2 ^ i) (i + 1) - eltLo count K (k ^^^ 2 ^ i) (i + 1)) * ext)
          (realOf (k ^^^ 2 ^ i)) tmp (eltLo count K k (i + 1) * ext)
          ((eltHi count K k (i + 1) - eltLo count K k (i + 1)) * ext) (realOf (k ^^^ 2 ^ i))
        >>= fun x => access (reduceLocal c.fp x.2 tmp (eltLo count K k (i + 1) * ext) A
          (eltLo count K k (i + 1) * ext) (eltHi count K k (i + 1) - eltLo count K k (i + 1)) c.dt c.op)
        >>= fun M => halvingFrom c P A tmp k (2 ^ K) (rsPieces count (2 ^ K)) ext realOf (i + 1)
          (first K k (i + 1)) (first K k (i + 1)) (lastAt K k (i + 1)) M) := by
  rw [halvingFrom, if_pos (lt_pof2_iff.mpr hi), halvingMove_eq hi, access_some, Prog.ret_bind]

/-- **A step back.** A member that has its own pieces and gets its partner's has those
both of them worked on. -/
theorem elt_regather {k i ext : Nat} {M : Mem} {A : BufId} {l : Bytes} {W : Nat → Bytes} (hi : i < K)
    (hM : count * ext ≤ (M A).length) (hl : count * ext ≤ l.length)
    (hown : ∀ x, eltLo count K k (i + 1) ≤ x → x < eltHi count K k (i + 1) → elt ext (M A) x = W x)
    (hother : ∀ x, eltLo count K (k ^^^ 2 ^ i) (i + 1) ≤ x → x < eltHi count K (k ^^^ 2 ^ i) (i + 1) →
      elt ext l x = W x) {x : Nat} (hlo : eltLo count K k i ≤ x) (hhi : x < eltHi count K k i) :
    elt ext (M.put A (eltLo count K (k ^^^ 2 ^ i) (i + 1) * ext)
      (slice l (eltLo count K (k ^^^ 2 ^ i) (i + 1) * ext)
        ((eltHi count K (k ^^^ 2 ^ i) (i + 1) - eltLo count K (k ^^^ 2 ^ i) (i + 1)) * ext)) A) x
      = W x := by
  have hle : eltLo count K (k ^^^ 2 ^ i) (i + 1)
      + (eltHi count K (k ^^^ 2 ^ i) (i + 1) - eltLo count K (k ^^^ 2 ^ i) (i + 1))
      = eltHi count K (k ^^^ 2 ^ i) (i + 1) := Nat.add_sub_cancel' (eltLo_le_eltHi ..)
  have hcnt := hle.trans_le (eltHi_le hi)
  have hmono := eltLo_le_eltHi count K k (i + 1)
  have hmono' := eltLo_le_eltHi count K (k ^^^ 2 ^ i) (i + 1)
  have hcases := elt_cases count k hi
  by_cases hin : eltLo count K (k ^^^ 2 ^ i) (i + 1) ≤ x ∧ x < eltHi count K (k ^^^ 2 ^ i) (i + 1)
  · rw [elt_put_in (fits_elts hM hcnt) (fits_elts hl hcnt) hin.1 (by omega)]
    exact hother x hin.1 hin.2
  · rw [elt_put_out (fits_elts hM hcnt) (fits_elts hl hcnt) (by omega)]
    exact hown x (by omega) (by omega)

/-- Bringing in the partner's pieces is work on the vector. -/
theorem work_regather {k i ext : Nat} {M : Mem} {A : BufId} {l : Bytes} (hi : i < K)
    (hM : count * ext ≤ (M A).length) (hl : count * ext ≤ l.length) :
    Work A (count * ext) M (M.put A (eltLo count K (k ^^^ 2 ^ i) (i + 1) * ext)
      (slice l (eltLo count K (k ^^^ 2 ^ i) (i + 1) * ext)
        ((eltHi count K (k ^^^ 2 ^ i) (i + 1) - eltLo count K (k ^^^ 2 ^ i) (i + 1)) * ext))) := by
  have hcnt : eltLo count K (k ^^^ 2 ^ i) (i + 1)
      + (eltHi count K (k ^^^ 2 ^ i) (i + 1) - eltLo count K (k ^^^ 2 ^ i) (i + 1)) ≤ count := by
    rw [Nat.add_sub_cancel' (eltLo_le_eltHi ..)]
    exact eltHi_le hi
  have hend := Nat.mul_le_mul_right ext hcnt
  rw [Nat.add_mul] at hend
  exact .of_acc (A := (· < count * ext)) (keeps_put_slice (fits_elts hM hcnt) (fits_elts hl hcnt)
    fun x _ h => by omega) fun _ h => h

/-- **The reduce-scatter of a team.** -/
theorem halving_together {α : Type} {T : Team P K} (hP : 2 ≤ P) (hc : RedOk c ty f)
    (hroom : Room P count ty.size acc m) (cont : Nat → Nat × Nat × Mem → Rank α) (q : Nat → Rank α) :
    ∃ M, Combined T f ty.size count acc m (eltLo count K · K) (eltHi count K · K) K M ∧
      Together P (fun r => if T.has r then
          reduceScatterHalving c P (acc r) (.scratch 0) (T.newOf r) (2 ^ K) (rsPieces count (2 ^ K))
            ty.size T.realOf (m r) >>= cont r
        else q r)
        (fun r => if T.has r then
          cont r (first K (T.newOf r) K, lastAt K (T.newOf r) K, M r) else q r) := by
  let loop : Nat → Nat → Mem → Rank α := fun i r M =>
    halvingFrom c P (acc r) (.scratch 0) (T.newOf r) (2 ^ K) (rsPieces count (2 ^ K)) ty.size T.realOf i
      (first K (T.newOf r) i) (first K (T.newOf r) i) (lastAt K (T.newOf r) i) M >>= cont r
  obtain ⟨M, hM, hrun⟩ := Together.ascend (P := P) (n := K)
    (fun i (M : Nat → Mem) r => if T.has r then loop i r (M r) else q r)
    (fun i => Combined T f ty.size count acc m (eltLo count K · i) (eltHi count K · i) i)
    (fun i M hi hI => by
      -- what stays with a member was in the range of both partners
      have hhalves := fun k => elt_cases count k hi
      have hmono := fun k => eltLo_le_eltHi count K k (i + 1)
      obtain ⟨M', hM', hstep⟩ := hI.step hP hc hroom hi (eltLo count K · (i + 1))
        (eltHi count K · (i + 1)) (fun k => ⟨hmono k, eltHi_le hi⟩)
        (fun k => by
          have := hhalves k
          have := hmono k
          have := hmono (k ^^^ 2 ^ i)
          omega)
        (fun k => by
          have h := hhalves (k ^^^ 2 ^ i)
          rw [Nat.xor_xor_cancel_right] at h
          have := hmono k
          have := hmono (k ^^^ 2 ^ i)
          omega) (loop (i + 1)) q
      refine ⟨M', hM', .trans (.of_eq fun r _ => ?_) hstep⟩
      simp only [loop, halvingFrom_step hi, Prog.bind_assoc])
    (Combined.start ..)
  refine ⟨M, hM, .trans (.of_eq fun r hr => ?_) (hrun.trans (.of_eq fun r hr => ?_))⟩
  · simp only [loop, lastAt_zero]
    rfl
  · split
    · simp only [loop]
      rw [halvingFrom, if_neg (Nat.lt_irrefl _), Prog.ret_bind]
    · rfl

end

end Pimid.Mpi
