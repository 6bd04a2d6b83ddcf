import Pimid.Htree.Elements

/-!
# The channel pass

Every router above the channel tier gets all its children. The pass only ever adds
children to routers that were there before it, and it leaves everything but routers,
links and live children alone.
-/

namespace Pimid.Htree

variable {P : Params} {b b₀ : Build} {T T' D : Set (List Nat)} {q : List Nat} {r : Nat}

theorem channelLevel_cases (P : Params) : Build.channelLevel P = 3 ∨ Build.channelLevel P = 5 := by
  unfold Build.channelLevel channelBearingLevel
  split
  · exact .inr rfl
  · split
    · exact .inl rfl
    · exact .inr rfl

/-- A router whose children the channel pass completes. -/
def AboveChannels (P : Params) (D : Set (List Nat)) (q : List Nat) : Prop :=
  q ∉ D ∧ q.length + (Build.channelLevel P + 1) = P.top

/-- The tree `T` of `b₀` grew to `T'`, below the routers above the channel tier only. -/
structure Scanned (P : Params) (b₀ b : Build) (T T' D : Set (List Nat)) : Prop where
  shape : Shape P b T' D
  sub : T ⊆ T'
  new : ∀ q ∈ T', q ∈ T ∨ ∃ p c, q = p ++ [c] ∧ p ∈ T ∧ AboveChannels P D p
  frame : Frame b₀ b

theorem Scanned.start (h : Shape P b T D) : Scanned P b b T T D :=
  ⟨h, subset_rfl, fun _ => .inl, Frame.refl b⟩

theorem Scanned.addChannel {c : Nat} (h : Scanned P b₀ b T T' D) (hq : q ∈ T) (ha : AboveChannels P D q)
    (hr : b₀.t.routerAt q = some r) (hc : c < P.fanout (Build.channelLevel P + 1)) :
    ∃ T'', Scanned P b₀ (Build.addChannel P (Build.channelLevel P) r (keyOf q) b c) T T'' D := by
  have hr' := h.frame.routers hr
  simp only [Build.addChannel, ← keyOf_snoc]
  split
  next => exact ⟨T', h⟩
  next hnew =>
    have hnone : b.t.routerAt (q ++ [c]) = none := by
      rw [contains_eq_true_iff, not_exists] at hnew
      exact Option.eq_none_iff_forall_ne_some.mpr hnew
    have hlev : Build.channelLevel P = P.top - (q.length + 1) := by
      have := ha.2
      omega
    have hlev' : Build.channelLevel P + 1 = P.top - q.length := by
      have := ha.2
      omega
    rw [hlev'] at hc
    have hs := h.shape.addChild (h.sub hq) ha.1 hr' hnone hc (h.shape.grows_newRouter_enliven hr')
    rw [← hlev] at hs
    refine ⟨_, hs, h.sub.trans (Set.subset_insert _ _), ?_, ?_⟩
    · rintro q' (rfl | hq')
      · exact .inr ⟨q, c, rfl, hq, ha⟩
      · exact h.new q' hq'
    · exact (h.frame.trans (Shape.frame_newRouter hnone)).trans (Shape.frame_enliven _ _ _)

theorem Scanned.scanChannels {k : String} (h₀ : Shape P b₀ T D) (h : Scanned P b₀ b T T' D)
    (hk : b₀.t.routerOf[k]? = some r) : ∃ T'', Scanned P b₀ (Build.scanChannels P b (k, r)) T T'' D := by
  unfold Build.scanChannels
  split
  next => exact ⟨T', h⟩
  next nd hnd =>
    split
    next => exact ⟨T', h⟩
    next hlev =>
      obtain ⟨q, rfl⟩ := h₀.keys hk
      have hch := channelLevel_cases P
      have hlev : nd.level = Build.channelLevel P + 1 := by
        by_contra hne
        exact hlev hne
      have hr' : b.t.routerAt q = some r := h.frame.routers hk
      -- neither a grid node nor a gridded chip is at the tier above the channels
      have hmem : q ∈ T ∧ AboveChannels P D q := by
        rcases (h₀.live q).mp ⟨r, hk⟩ with hq | hn
        · by_cases hd : q ∈ D
          · have hi := Option.some.inj (hnd.symm.trans (h.shape.dieInfo hd hr'))
            simp only [hi] at hlev
            omega
          · obtain ⟨live, hi, _⟩ := h.shape.treeInfo (h.sub hq) hd hr'
            have hi := Option.some.inj (hnd.symm.trans hi)
            simp only [hi] at hlev
            exact ⟨hq, hd, by omega⟩
        · have hi := Option.some.inj (hnd.symm.trans (h.shape.nodeInfo hn hr'))
          obtain ⟨d, hd, _⟩ := hn
          have := (h₀.die hd).2.2.1
          simp only [hi] at hlev
          omega
      rw [hlev]
      have hall : ∀ cs : List Nat, (∀ c ∈ cs, c < P.fanout (Build.channelLevel P + 1)) → ∀ {b T'},
          Scanned P b₀ b T T' D →
          ∃ T'', Scanned P b₀ (cs.foldl (Build.addChannel P (Build.channelLevel P) r (keyOf q)) b) T T'' D := by
        intro cs hcs
        induction cs with
        | nil => exact fun h => ⟨_, h⟩
        | cons c cs ih =>
          intro b T' h
          obtain ⟨T₁, h₁⟩ := h.addChannel hmem.1 hmem.2 hk (hcs c (by simp))
          exact ih (fun x hx => hcs x (List.mem_cons_of_mem _ hx)) h₁
      exact hall _ (fun c hc => List.mem_range.mp hc) h

/-- **The channel pass extends the tree by whole channels.** -/
theorem materialiseChannels_spec (h : Shape P b T D) :
    ∃ T', Scanned P b (Build.materialiseChannels P b) T T' D := by
  have hall : ∀ l : List (String × Nat), (∀ kr ∈ l, b.t.routerOf[kr.1]? = some kr.2) → ∀ {b' T'},
      Scanned P b b' T T' D → ∃ T'', Scanned P b (l.foldl (Build.scanChannels P) b') T T'' D := by
    intro l hl
    induction l with
    | nil => exact fun h => ⟨_, h⟩
    | cons kr l ih =>
      intro b' T' h'
      obtain ⟨T₁, h₁⟩ := h'.scanChannels h (hl kr (by simp))
      exact ih (fun x hx => hl x (List.mem_cons_of_mem _ hx)) h₁
  refine hall _ (fun kr hkr => ?_) (Scanned.start h)
  exact Std.TreeMap.mem_toList_iff_getElem?_eq_some.mp hkr

end Pimid.Htree
