import ProtocolIR.Proofs.Grammar.Solution

/-!
# The computation of FOLLOW

Every round adds to what follows the parts of each production what their places ask for. The sets
only grow and hold tokens of the grammar only, so the rounds come to an end, and then every place
has what it asks for. That is carried along the way from the root to any production inside of it.
-/

namespace ProtocolIR.Grammar

open List

variable {g g' : Grammar} {p q : ProductionId} {ps qs : List ProductionId} {set : TokenSet}
  {token : Token}

/-! ## What the places of parts ask for -/

/-- What productions one after another, and a set after them, begin with. -/
def followedBy (g : Grammar) (ps : List ProductionId) (follow : TokenSet) : TokenSet :=
  if (g.firstOfSequence ps).2 then TokenSet.union (g.firstOfSequence ps).1 follow
  else (g.firstOfSequence ps).1

theorem mem_followedBy {follow : TokenSet} : token ∈ g.followedBy ps follow ↔
    token ∈ (g.firstOfSequence ps).1 ∨ (∀ p ∈ ps, g.isNullable p = true) ∧ token ∈ follow := by
  rw [← firstOfSequence_snd, followedBy]
  split
  · next h => simp [h]
  · next h => simp [h]

theorem mem_followInSequence {follow : TokenSet} : (q, set) ∈ g.followInSequence follow ps ↔
    ∃ before after, ps = before ++ q :: after ∧ set = g.followedBy after follow := by
  induction ps with
  | nil => simp [followInSequence]
  | cons p ps ih =>
    rw [followInSequence, mem_cons, ih]
    constructor
    · rintro (h | ⟨before, after, rfl, rfl⟩)
      · cases h
        exact ⟨[], ps, rfl, rfl⟩
      · exact ⟨p :: before, after, rfl, rfl⟩
    · rintro ⟨before, after, h, rfl⟩
      cases before with
      | nil =>
        cases h
        exact .inl rfl
      | cons r before =>
        cases h
        exact .inr ⟨before, after, rfl, rfl⟩

theorem exists_mem_followParts_repeated {r : ProductionId} {mayStop : Bool} {n : Nat}
    (h : repeated? (g.kind p) = some (mayStop, r)) (hall : ps ++ q :: qs = replicate n r) :
    ∃ set, (q, set) ∈ g.followParts p ∧ g.followedBy qs (g.follow p) ⊆ set := by
  obtain ⟨-, -, htail⟩ := append_eq_replicate_iff.1 hall
  obtain ⟨rfl, hqs⟩ := cons.inj htail
  refine ⟨TokenSet.union (g.first q) (g.follow p), ?_, fun token htoken ↦ ?_⟩
  · unfold followParts
    cases hkind : g.kind p <;> rw [hkind] at h <;> cases h <;> exact mem_singleton.2 rfl
  · rw [mem_followedBy, mem_firstOfSequence, hqs, beginsSequence_replicate] at htoken
    exact TokenSet.mem_union.2 (htoken.imp And.right And.right)

/-- The place of a part asks for what comes after it, and if that may be nothing for what follows
the whole. -/
theorem exists_mem_followParts (h : (g.kind p).Expands (ps ++ q :: qs)) :
    ∃ set, (q, set) ∈ g.followParts p ∧ g.followedBy qs (g.follow p) ⊆ set := by
  have hq : q ∈ (g.kind p).children := h.subset_children (by simp)
  generalize hkind : g.kind p = kind at h hq
  generalize hall : ps ++ q :: qs = all at h
  cases h with
  | epsilon | noCase => cases ps <;> cases hall
  | sequence | unit =>
    refine ⟨_, ?_, List.Subset.refl _⟩
    simp only [followParts, hkind]
    exact mem_followInSequence.2 ⟨ps, qs, hall.symm, rfl⟩
  | counter | loop | forEach =>
    exact exists_mem_followParts_repeated (by rw [hkind]; rfl) hall
  | yes | no | left | right | case | otherwise | enclosure | block | reference | placeholder =>
    obtain ⟨-, h⟩ | ⟨-, h⟩ := append_eq_singleton_iff.1 hall
    · cases h
      refine ⟨g.follow p, ?_, fun token htoken ↦ ?_⟩
      · simp only [followParts, hkind]
        exact mem_map.2 ⟨q, hq, rfl⟩
      · simpa [mem_followedBy, firstOfSequence] using htoken
    · cases h

theorem mem_children_of_followParts (h : (q, set) ∈ g.followParts p) :
    q ∈ (g.kind p).children := by
  unfold followParts at h
  generalize g.kind p = kind at h
  cases kind with
  | sequence | unit =>
    obtain ⟨before, after, rfl, -⟩ := mem_followInSequence.1 h
    simp [ProductionKind.children]
  | counter | loop | forEach =>
    cases mem_singleton.1 h
    simp [ProductionKind.children]
  | _ =>
    obtain ⟨r, hr, h⟩ := mem_map.1 h
    cases h
    exact hr

/-! ## Additions -/

/-- What is recorded about FOLLOW is in order, and of the grammar's own tokens. -/
structure Following (g : Grammar) : Prop where
  size : g.attributes.size = g.size
  ascending : ∀ p, (g.recorded p).follow.Ascending
  first : ∀ p, (g.recorded p).first ⊆ g.tokens
  follow : ∀ p, (g.recorded p).follow ⊆ g.tokens

theorem Following.subset_tokens (h : g.Following) (hset : (q, set) ∈ g.followParts p) :
    set ⊆ g.tokens := by
  have hsequence : ∀ ps, g.followedBy ps (g.follow p) ⊆ g.tokens := by
    intro ps token htoken
    rw [mem_followedBy, mem_firstOfSequence] at htoken
    obtain ⟨_, r, _, -, -, hr⟩ | ⟨-, hp⟩ := htoken
    · exact h.first _ hr
    · exact h.follow _ hp
  unfold followParts at hset
  generalize g.kind p = kind at hset
  cases kind with
  | sequence | unit =>
    obtain ⟨before, after, -, rfl⟩ := mem_followInSequence.1 hset
    exact hsequence after
  | counter | loop | forEach =>
    cases mem_singleton.1 hset
    intro token htoken
    exact (TokenSet.mem_union.1 htoken).elim (fun hr ↦ h.first _ hr) fun hp ↦ h.follow _ hp
  | _ =>
    obtain ⟨r, -, hr⟩ := mem_map.1 hset
    cases hr
    exact h.follow _

/-- Adds tokens to what follows a production. -/
def addFollowing (g : Grammar) (p : ProductionId) (set : TokenSet) : Grammar :=
  g.modifyAttributes (g.resolve p) fun a ↦ { a with follow := TokenSet.union a.follow set }

theorem addFollow_eq (changed : Bool) : addFollow (g, changed) (p, set) =
    (g.addFollowing p set, changed || !set.all fun token ↦ (g.follow p).contains token) := rfl

section

variable (h : g.Following) (hg : g.WellFormed) (hp : p ∈ g.ids)
include h hg hp

theorem Following.recorded_addFollowing (q : ProductionId) :
    (g.addFollowing p set).recorded q =
      if q = g.resolve p then
        { g.recorded (g.resolve p) with follow := TokenSet.union (g.follow p) set }
      else g.recorded q := by
  have hsize : (g.resolve p).index < g.attributes.size := h.size ▸ mem_ids.1 (resolve_mem_ids hg hp)
  exact recorded_modifyAttributes hsize _

theorem Following.addFollowing_of_subset (hset : set ⊆ g.follow p) : g.addFollowing p set = g := by
  have hsize : (g.resolve p).index < g.attributes.size := h.size ▸ mem_ids.1 (resolve_mem_ids hg hp)
  have hunion : TokenSet.union (g.follow p) set = g.follow p :=
    TokenSet.union_of_subset (h.ascending _) hset
  have hentry : g.attributes[(g.resolve p).index]? = some (g.attributesOf p) := by
    rw [attributesOf, Array.getElem?_eq_getElem hsize]
    rfl
  have hattributes : (g.addFollowing p set).attributes = g.attributes := by
    apply Array.ext_getElem?
    intro i
    simp only [Grammar.addFollowing, modifyAttributes, Array.getElem?_modify]
    split
    · next heq =>
      subst heq
      rw [hentry]
      exact congrArg (fun follow ↦ some { g.attributesOf p with follow }) hunion
    · rfl
  calc g.addFollowing p set = { g with attributes := (g.addFollowing p set).attributes } := rfl
    _ = g := by rw [hattributes]

theorem Following.addFollowing (hset : set ⊆ g.tokens) : (g.addFollowing p set).Following where
  size := by
    calc (g.addFollowing p set).attributes.size = g.attributes.size := Array.size_modify
      _ = g.size := h.size
  ascending q := by
    rw [h.recorded_addFollowing hg hp]
    split
    · exact (h.ascending _).union
    · exact h.ascending q
  first q := by
    rw [h.recorded_addFollowing hg hp]
    split
    · exact h.first _
    · exact h.first q
  follow q token hq := by
    rw [h.recorded_addFollowing hg hp] at hq
    split at hq
    · exact (TokenSet.mem_union.1 hq).elim (fun hp ↦ h.follow _ hp) fun htoken ↦ hset htoken
    · exact h.follow q hq

theorem addFollowing_first (q : ProductionId) :
    ((g.addFollowing p set).recorded q).nullable = (g.recorded q).nullable ∧
      ((g.addFollowing p set).recorded q).first = (g.recorded q).first := by
  rw [h.recorded_addFollowing hg hp]
  split
  · next heq =>
    rw [heq]
    exact ⟨rfl, rfl⟩
  · exact ⟨rfl, rfl⟩

/-- An addition either changes nothing or reports a change. -/
theorem Following.addFollow_cases (set : TokenSet) (changed : Bool) :
    (addFollow (g, changed) (p, set) = (g, changed) ∧ set ⊆ g.follow p) ∨
      addFollow (g, changed) (p, set) = (g.addFollowing p set, true) ∧ ¬ set ⊆ g.follow p := by
  rw [addFollow_eq]
  by_cases hset : set ⊆ g.follow p
  · refine .inl ⟨?_, hset⟩
    have hall : (set.all fun token ↦ (g.follow p).contains token) = true := by
      simpa using fun token htoken ↦ hset htoken
    rw [h.addFollowing_of_subset hg hp hset, hall]
    simp
  · refine .inr ⟨?_, hset⟩
    have hall : (set.all fun token ↦ (g.follow p).contains token) = false := by
      rw [Bool.eq_false_iff]
      intro hall
      refine hset fun token htoken ↦ ?_
      simpa using all_eq_true.1 hall token htoken
    rw [hall]
    simp

end

/-! ## Rounds -/

/-- How much is recorded. -/
def followWeight (g : Grammar) : Nat := (g.ids.map fun p ↦ (g.recorded p).follow.length).sum

theorem Following.followWeight_le (h : g.Following) : g.followWeight ≤ g.size * g.size := by
  have hle : ∀ n ∈ g.ids.map fun p ↦ (g.recorded p).follow.length, n ≤ g.size := by
    intro n hn
    obtain ⟨p, -, rfl⟩ := mem_map.1 hn
    exact ((h.ascending p).length_le (h.follow p)).trans g.length_tokens_le
  calc g.followWeight ≤ (g.ids.map _).length • g.size := sum_le_card_nsmul _ _ hle
    _ = g.size * g.size := by simp [ids]

theorem Following.followWeight_lt (h : g.Following) (hg : g.WellFormed) (hp : p ∈ g.ids)
    (hset : set ⊆ g.tokens) (hnew : ¬ set ⊆ g.follow p) :
    g.followWeight < (g.addFollowing p set).followWeight := by
  have hafter := h.addFollowing hg hp hset
  have hle (q) : (g.recorded q).follow ⊆ ((g.addFollowing p set).recorded q).follow := by
    rw [h.recorded_addFollowing hg hp]
    split
    · next heq =>
      subst heq
      exact fun token htoken ↦ TokenSet.mem_union.2 (.inl htoken)
    · exact List.Subset.refl _
  refine sum_lt_sum _ _ (fun q _ ↦ (h.ascending q).length_le (hle q))
    ⟨g.resolve p, resolve_mem_ids hg hp, ?_⟩
  refine (h.ascending _).length_lt (hafter.ascending _) (hle _) fun heq ↦ hnew fun token htoken ↦ ?_
  rw [h.recorded_addFollowing hg hp, if_pos rfl] at heq
  have hunion : g.follow p = TokenSet.union (g.follow p) set := heq
  rw [hunion]
  exact TokenSet.mem_union.2 (.inr htoken)

/-- The grammars that the rounds lead to: only FOLLOW is different. -/
structure SameFirst (g g' : Grammar) : Prop where
  productions : g'.productions = g.productions
  root : g'.root = g.root
  nullable : ∀ p, (g'.recorded p).nullable = (g.recorded p).nullable
  first : ∀ p, (g'.recorded p).first = (g.recorded p).first

theorem SameFirst.refl (g : Grammar) : g.SameFirst g := ⟨rfl, rfl, fun _ ↦ rfl, fun _ ↦ rfl⟩

theorem SameFirst.trans {g'' : Grammar} (h : g.SameFirst g') (h' : g'.SameFirst g'') :
    g.SameFirst g'' :=
  ⟨h'.productions.trans h.productions, h'.root.trans h.root,
    fun p ↦ (h'.nullable p).trans (h.nullable p), fun p ↦ (h'.first p).trans (h.first p)⟩

/-- Every place has what it asks for. -/
def FollowSettled (g : Grammar) : Prop :=
  ∀ p ∈ g.ids, ∀ q set, (q, set) ∈ g.followParts p → set ⊆ g.follow q

theorem Following.followRound_cases (h : g.Following) (hg : g.WellFormed) :
    (g.followRound = (g, false) ∧ g.FollowSettled) ∨ ∃ g', g.followRound = (g', true) ∧
      (g'.Following ∧ g.SameFirst g') ∧ g.followWeight < g'.followWeight := by
  have hcases := foldl_progress (I := fun g' : Grammar ↦ g'.Following ∧ g.SameFirst g')
    (D := fun g' entry ↦ entry.2 ⊆ g'.follow entry.1) (m := followWeight)
    (l := g.ids.flatMap g.followParts) (f := addFollow) ?_ ⟨h, .refl g⟩ false
  · refine hcases.imp_left fun hsame ↦ ⟨hsame.1, fun p hp q set hset ↦ ?_⟩
    exact hsame.2 (q, set) (mem_flatMap.2 ⟨p, hp, hset⟩)
  · rintro g' changed ⟨hfollowing, hsame⟩ ⟨q, set⟩ hset
    obtain ⟨p, hp, hset⟩ := mem_flatMap.1 hset
    have hg' := hg.congr hsame.productions
    have hq : q ∈ g'.ids := by
      rw [ids_congr hsame.productions]
      exact hg p q (mem_children_of_followParts hset)
    have htokens : set ⊆ g'.tokens := by
      rw [tokens_congr hsame.productions]
      exact h.subset_tokens hset
    refine (hfollowing.addFollow_cases hg' hq set changed).imp_right ?_
    rintro ⟨hstep, hnew⟩
    refine ⟨_, hstep, ⟨hfollowing.addFollowing hg' hq htokens, hsame.trans ?_⟩,
      hfollowing.followWeight_lt hg' hq htokens hnew⟩
    exact ⟨rfl, rfl, fun p ↦ (addFollowing_first hfollowing hg' hq p).1,
      fun p ↦ (addFollowing_first hfollowing hg' hq p).2⟩

/-- The rounds come to an end before they are out of fuel. -/
theorem Following.settleFollow (h : g.Following) (hg : g.WellFormed) {fuel : Nat}
    (hfuel : g.size * g.size < g.followWeight + fuel) :
    (settleFollow fuel g).Following ∧ (settleFollow fuel g).FollowSettled ∧
      g.SameFirst (settleFollow fuel g) := by
  induction fuel generalizing g with
  | zero =>
    have hle := h.followWeight_le
    omega
  | succ fuel ih =>
    unfold Grammar.settleFollow
    obtain ⟨hsame, hsettled⟩ | ⟨g', hmore, ⟨hfollowing, hsame⟩, hlt⟩ := h.followRound_cases hg
    · rw [hsame]
      exact ⟨h, hsettled, .refl g⟩
    · rw [hmore]
      obtain ⟨hfollowing', hsettled, hsame'⟩ := ih hfollowing (hg.congr hsame.productions)
        (by rw [size_congr hsame.productions]; omega)
      exact ⟨hfollowing', hsettled, hsame.trans hsame'⟩

theorem followRound_of_settled (h : g.Following) (hg : g.WellFormed) (hsettled : g.FollowSettled) :
    g.followRound = (g, false) := by
  have hall : ∀ entries : List (ProductionId × TokenSet),
      (∀ entry ∈ entries, entry.1 ∈ g.ids ∧ entry.2 ⊆ g.follow entry.1) →
      entries.foldl addFollow (g, false) = (g, false) := by
    intro entries hentries
    induction entries with
    | nil => rfl
    | cons entry entries ih =>
      obtain ⟨⟨hmem, hsub⟩, hrest⟩ := forall_mem_cons.1 hentries
      obtain ⟨hsame, -⟩ | ⟨-, hnew⟩ := h.addFollow_cases hg hmem entry.2 false
      · rw [foldl_cons, hsame, ih hrest]
      · exact absurd hsub hnew
  refine hall _ fun entry hentry ↦ ?_
  obtain ⟨p, hp, hentry⟩ := mem_flatMap.1 hentry
  exact ⟨hg p entry.1 (mem_children_of_followParts hentry), hsettled p hp _ _ hentry⟩

section

variable (hproductions : g'.productions = g.productions)
  (hrecorded : ∀ p, g'.recorded p = g.recorded p)
include hproductions hrecorded

theorem attributesOf_congr (p : ProductionId) : g'.attributesOf p = g.attributesOf p := by
  rw [attributesOf_eq, attributesOf_eq, resolve_congr hproductions, hrecorded]

theorem followParts_congr (p : ProductionId) : g'.followParts p = g.followParts p := by
  have hattributes : g'.attributesOf = g.attributesOf := by
    funext p
    exact attributesOf_congr hproductions hrecorded p
  have hnull : g'.isNullable = g.isNullable := by
    funext p
    rw [isNullable, isNullable, hattributes]
  have hfirst : g'.first = g.first := by
    funext p
    rw [first, first, hattributes]
  have hsequence : ∀ follow ps, g'.followInSequence follow ps = g.followInSequence follow ps := by
    intro follow ps
    induction ps with
    | nil => rfl
    | cons p ps ih => rw [followInSequence, followInSequence, firstOfSequence_congr hnull hfirst, ih]
  simp only [followParts, kind_congr hproductions, hsequence, hfirst, follow, hattributes]

theorem FollowSettled.congr (h : g.FollowSettled) : g'.FollowSettled := by
  intro p hp q set hset
  rw [ids_congr hproductions] at hp
  rw [followParts_congr hproductions hrecorded] at hset
  rw [follow, attributesOf_congr hproductions hrecorded]
  exact h p hp q set hset

end

/-! ## Occurrences -/

/-- What follows a production wherever it occurs. -/
theorem Occurs.follow {before after : List Token} (h : g.Occurs p q before after)
    (hsat : g.Saturated) (hsettled : g.FollowSettled) (hg : g.WellFormed) (hp : p ∈ g.ids) :
    q ∈ g.ids ∧ ∀ token rest, after = token :: rest → token ∈ g.follow q := by
  induction h with
  | self => exact ⟨hp, by simp⟩
  | @inside q r ps qs before after v w outer hexpands left right ih =>
    obtain ⟨hq, hfollow⟩ := ih
    have hchildren := hexpands.subset_children
    refine ⟨hg q r (hchildren (by simp)), fun token rest hafter ↦ ?_⟩
    obtain ⟨set, hset, hasks⟩ := exists_mem_followParts hexpands
    refine hsettled q hq r set hset (hasks (mem_followedBy.2 ?_))
    obtain ⟨hnull, hfirst⟩ := hsat.of_derives hg right fun s hs ↦ hg q s (hchildren (by simp [hs]))
    cases w with
    | nil => exact .inr ⟨hnull rfl, hfollow token rest hafter⟩
    | cons head tail =>
      cases hafter
      exact .inl (mem_firstOfSequence.2 (hfirst _ _ rfl))

end ProtocolIR.Grammar
