import Cvise.HintRoundTrip
import Cvise.RestartQueue
import Mathlib.Data.List.Induction

namespace Cvise
set_option autoImplicit true

def HintBundle.hintsOf (b : HintBundle) (type : Bytes) : List Hint :=
  b.hints.filter fun h => match b.typeOf h with
    | .ok t => t = type
    | .error _ => false

/-- What is stored for the hints of one type. -/
def storedBundle (p : Pass L) (b : HintBundle) (type : Bytes) : HintBundle :=
  sortHints (backfillPassNames p { b with hints := b.hintsOf type })

instance : Std.Total fun g h : Hint => g.comparisonKey ≤ h.comparisonKey :=
  ⟨fun g h => le_total g.comparisonKey h.comparisonKey⟩

instance : IsTrans Hint fun g h : Hint => g.comparisonKey ≤ h.comparisonKey :=
  ⟨fun _ _ _ hgh hhk => le_trans hgh hhk⟩

theorem sortHints_sorted (b : HintBundle) :
    (sortHints b).hints.Pairwise (·.comparisonKey ≤ ·.comparisonKey) :=
  List.pairwise_insertionSort (fun g h : Hint => g.comparisonKey ≤ h.comparisonKey) _

/-- The groups after some of the hints, each in the order of the hints. -/
structure Grouped (b : HintBundle) (hs : List Hint) (grouped : Dict Bytes HintBundle) : Prop where
  nodup : (grouped.map Prod.fst).Nodup
  group : ∀ e ∈ grouped, e.2 = { b with hints := HintBundle.hintsOf { b with hints := hs } e.1 }
  all : ∀ h ∈ hs, ∀ t, b.typeOf h = .ok t → t ∈ grouped.map Prod.fst

theorem hintsOf_append (b : HintBundle) (hs : List Hint) (h : Hint) (ht : b.typeOf h = .ok t) :
    HintBundle.hintsOf { b with hints := hs ++ [h] } type =
      HintBundle.hintsOf { b with hints := hs } type ++ if t = type then [h] else [] := by
  have ht' : HintBundle.typeOf { b with hints := hs ++ [h] } h = .ok t := ht
  rw [HintBundle.hintsOf, List.filter_append, List.filter_cons, ht']
  by_cases heq : t = type
  · simp only [heq, decide_true, if_true]
    rfl
  · simp only [heq, decide_false, if_false]
    rfl

theorem Grouped.add (hg : Grouped b hs grouped) (h : addToGroup b grouped x = .ok grouped') :
    Grouped b (hs ++ [x]) grouped' := by
  rw [addToGroup, except_bind_ok] at h
  obtain ⟨t, ht, h⟩ := h
  split at h
  · rename_i hany
    cases h
    have hkeys : ∀ g : Dict Bytes HintBundle, (g.map fun e =>
        if e.1 = t then (e.1, { e.2 with hints := e.2.hints ++ [x] }) else e).map Prod.fst =
          g.map Prod.fst := by
      intro g
      rw [List.map_map]
      apply List.map_congr_left
      intro e _
      rw [Function.comp]
      split <;> rfl
    constructor
    case nodup =>
      rw [hkeys]
      exact hg.nodup
    case group =>
      intro e he
      obtain ⟨e₀, he₀, rfl⟩ := List.mem_map.1 he
      split
      · rename_i heq
        rw [hintsOf_append b hs x ht, if_pos heq.symm]
        dsimp only
        rw [hg.group e₀ he₀]
      · rename_i hne
        rw [hintsOf_append b hs x ht, if_neg (Ne.symm hne), List.append_nil]
        exact hg.group e₀ he₀
    case all =>
      intro y hy s hs'
      rw [hkeys]
      rcases List.mem_append.1 hy with hy | hy
      · exact hg.all y hy s hs'
      · cases List.mem_singleton.1 hy
        cases ht.symm.trans hs'
        obtain ⟨e, he, heq⟩ := List.any_eq_true.1 hany
        exact List.mem_map.2 ⟨e, he, of_decide_eq_true heq⟩
  · rename_i hany
    cases h
    have hnew : t ∉ grouped.map Prod.fst := by
      intro hmem
      obtain ⟨e, he, heq⟩ := List.mem_map.1 hmem
      exact hany (List.any_eq_true.2 ⟨e, he, decide_eq_true heq⟩)
    constructor
    case nodup =>
      rw [List.map_append, List.map_singleton]
      exact hg.nodup.append (List.nodup_singleton t) (List.disjoint_singleton.2 hnew)
    case group =>
      intro e he
      rcases List.mem_append.1 he with he | he
      · have hne : t ≠ e.1 := fun heq => hnew (heq ▸ List.mem_map.2 ⟨e, he, rfl⟩)
        rw [hintsOf_append b hs x ht, if_neg hne, List.append_nil]
        exact hg.group e he
      · cases List.mem_singleton.1 he
        -- It is the first hint of its type.
        have hnone : HintBundle.hintsOf { b with hints := hs } t = [] := by
          apply List.filter_eq_nil_iff.2
          intro y hy hyt
          cases hs' : b.typeOf y with
          | error _ =>
            have hs'' : HintBundle.typeOf { b with hints := hs } y = .error _ := hs'
            rw [hs''] at hyt
            cases hyt
          | ok s =>
            have hs'' : HintBundle.typeOf { b with hints := hs } y = .ok s := hs'
            rw [hs''] at hyt
            cases of_decide_eq_true hyt
            exact hnew (hg.all y hy _ hs')
        rw [hintsOf_append b hs x ht, if_pos rfl, hnone]
        rfl
    case all =>
      intro y hy s hs'
      rw [List.map_append, List.mem_append]
      rcases List.mem_append.1 hy with hy | hy
      · exact .inl (hg.all y hy s hs')
      · cases List.mem_singleton.1 hy
        cases ht.symm.trans hs'
        exact .inr List.mem_cons_self

theorem groupHintsByType_grouped (h : groupHintsByType b = .ok grouped) :
    Grouped b b.hints grouped := by
  have hall : ∀ hs grouped, hs.foldlM (addToGroup b) [] = .ok grouped → Grouped b hs grouped := by
    intro hs
    induction hs using List.reverseRecOn with
    | nil =>
      intro grouped h
      cases h
      exact ⟨List.nodup_nil, fun e he => absurd he List.not_mem_nil, fun x hx => absurd hx List.not_mem_nil⟩
    | append_singleton hs x ih =>
      intro grouped h
      rw [List.foldlM_append, except_bind_ok] at h
      obtain ⟨grouped₀, h₀, h⟩ := h
      rw [List.foldlM_cons, except_bind_ok] at h
      obtain ⟨grouped₁, h₁, h⟩ := h
      cases h
      exact (ih grouped₀ h₀).add h₁
  exact hall b.hints grouped h

/-- The stored types are distinct, and each one's file has its hints, sorted. -/
structure StoredLatest (p : Pass L) (b : HintBundle) (stored : HintState.StoredTypes)
    (files : HintFiles) : Prop where
  types : (stored.map Prod.fst).Nodup
  names : (files.map Prod.fst).Nodup
  bundle : ∀ e ∈ stored, e.2.1 = storedBundle p b e.1
  written : ∀ e ∈ stored, (e.2.2, e.2.1) ∈ files

theorem storeBundle_latest {p : Pass L} (h : storeBundle p b = .ok (stored, files)) :
    StoredLatest p b stored files := by
  have hwritten := fun e he => (storeBundle_stored h e he).1
  rw [storeBundle, except_bind_ok] at h
  obtain ⟨grouped, hgroup, h⟩ := h
  have hg := groupHintsByType_grouped hgroup
  rw [storeHintsPerType] at h
  split at h
  · cases h
    constructor
    case types =>
      rw [List.map_map]
      show (List.map (Prod.fst ∘ Prod.fst) _).Nodup
      rw [← List.map_map, List.zipIdx_map_fst, List.map_map]
      exact hg.nodup
    case names =>
      rw [List.map_map]
      show (List.map Prod.snd _).Nodup
      rw [List.zipIdx_map_snd]
      exact List.nodup_range'
    case bundle =>
      intro e he
      obtain ⟨⟨⟨type, bundle⟩, i⟩, hi, rfl⟩ := List.mem_map.1 he
      obtain ⟨g, hg', heq⟩ :=
        List.mem_map.1 (List.mem_of_getElem? (List.mem_zipIdx_iff_getElem?.1 hi))
      cases heq
      rw [storedBundle]
      dsimp only
      rw [hg.group g hg']
    case written => exact hwritten
  · cases h

/-- The window is nonempty and within the `n` hints that the state counts. -/
def ElementaryState.InRange (n : Nat) : ElementaryState → Prop
  | .binary s => s.instances = n ∧ s.index < n
  | .subsegment s => s.instances = n ∧ 0 < s.chunk ∧ s.index + s.chunk ≤ n

namespace ElementaryState

theorem InRange.window {u : ElementaryState} (h : u.InRange n) : u.index < u.end ∧ u.end ≤ n := by
  cases u with
  | binary s =>
    obtain ⟨hn, hlt⟩ := h
    have hpos := s.chunk_pos
    simp only [index, ElementaryState.end, BinaryState.end]
    omega
  | subsegment s =>
    obtain ⟨_, hpos, hle⟩ := h
    simp only [index, ElementaryState.end, SubsegmentState.end]
    omega

theorem binary_create (h : BinaryState.create n = some s) : InRange n (.binary s) := by
  rw [BinaryState.create] at h
  split at h
  · rename_i hpos
    cases h
    exact ⟨rfl, hpos⟩
  · cases h

theorem binary_advance (h : BinaryState.advance s = some s') (hpos : 0 < s.instances) :
    InRange s.instances (.binary s') := by
  rw [BinaryState.advance] at h
  split at h
  · split at h
    · cases h
      exact ⟨rfl, hpos⟩
    · cases h
  · rename_i hlt
    cases h
    exact ⟨rfl, Nat.lt_of_not_ge hlt⟩

theorem subsegment_create (hpos : 0 < minChunk)
    (h : SubsegmentState.create rnd n minChunk maxChunk hpos = some s) :
    InRange n (.subsegment s) := by
  rw [SubsegmentState.create] at h
  split at h
  · cases h
  · rename_i hle
    cases h
    have hstart : SubsegmentState.randint rnd (n - minChunk) < n - minChunk + 1 :=
      Nat.mod_lt _ (Nat.succ_pos _)
    have hwindow : SubsegmentState.randint rnd (n - minChunk) + minChunk ≤ n := by omega
    exact ⟨rfl, hpos, hwindow⟩

theorem InRange.advance {u u' : ElementaryState} (hu : u.InRange n) (h : u.advance rnd = some u') :
    u'.InRange n := by
  cases u with
  | binary s =>
    obtain ⟨s', hs', rfl⟩ := Option.map_eq_some_iff.1 h
    obtain ⟨rfl, hlt⟩ := hu
    exact binary_advance hs' (Nat.zero_lt_of_lt hlt)
  | subsegment s =>
    obtain ⟨s', hs', rfl⟩ := Option.map_eq_some_iff.1 h
    obtain ⟨rfl, hpos, hle⟩ := hu
    rw [SubsegmentState.advance] at hs'
    split at hs'
    · exact subsegment_create (Nat.succ_pos _) hs'
    · cases hs'
      refine ⟨rfl, hpos, ?_⟩
      dsimp only
      split <;> omega

/-- Whatever the state was before, its window fits the new number of hints. -/
theorem InRange.advanceOnSuccess {u u' : ElementaryState} (hu : u.InRange m)
    (h : u.advanceOnSuccess rnd n = some u') : u'.InRange n := by
  cases u with
  | binary s =>
    obtain ⟨s', hs', rfl⟩ := Option.map_eq_some_iff.1 h
    rw [BinaryState.advanceOnSuccess] at hs'
    split at hs'
    · cases hs'
    · rename_i hn
      dsimp only at hs'
      split at hs'
      · exact binary_advance hs' (Nat.pos_of_ne_zero hn)
      · rename_i hlt
        cases hs'
        exact ⟨rfl, Nat.lt_of_not_ge hlt⟩
  | subsegment s =>
    obtain ⟨s', hs', rfl⟩ := Option.map_eq_some_iff.1 h
    obtain ⟨rfl, hpos, hle⟩ := hu
    rw [SubsegmentState.advanceOnSuccess] at hs'
    split at hs'
    · cases hs'
    · rename_i hchunk
      dsimp only at hs'
      split at hs'
      · exact subsegment_create (Nat.succ_pos _) hs'
      · cases hs'
        refine ⟨rfl, hpos, ?_⟩
        dsimp only
        split <;> omega

end ElementaryState

/-- The pass enumerates the hints of each type by binary search or by subsegments. -/
def HintMethods.Enumerates (m : HintMethods) : Prop :=
  ∀ rnd n u, m.createElementaryState rnd n = some u →
    (∃ s, BinaryState.create n = some s ∧ u = .binary s) ∨
      ∃ minChunk maxChunk s, ∃ hpos : 0 < minChunk,
        SubsegmentState.create rnd n minChunk maxChunk hpos = some s ∧ u = .subsegment s

theorem HintMethods.Enumerates.inRange {m : HintMethods} (hm : m.Enumerates)
    (h : m.createElementaryState rnd n = some u) : u.InRange n := by
  rcases hm rnd n u h with ⟨s, hs, rfl⟩ | ⟨minChunk, maxChunk, s, hpos, hs, rfl⟩
  · exact ElementaryState.binary_create hs
  · exact ElementaryState.subsegment_create hpos hs

theorem filterMap_keys {f : α → Option β} {k : α → κ} {k' : β → κ}
    (h : ∀ a b, f a = some b → k' b = k a) (l : List α) :
    ((l.filterMap f).map k').Sublist (l.map k) := by
  induction l with
  | nil => exact .slnil
  | cons a l ih =>
    rw [List.filterMap_cons]
    cases hfa : f a with
    | none => exact ih.cons _
    | some b =>
      rw [List.map_cons, List.map_cons, h a b hfa]
      exact ih.cons_cons _

theorem map_set_same {f : α → κ} {l : List α} (h : l[i]? = some a) (hb : f b = f a) :
    (l.set i b).map f = l.map f := by
  have hkey : (l.map f)[i]? = some (f b) := by rw [List.getElem?_map, h, Option.map_some, hb]
  obtain ⟨hlt, hget⟩ := List.getElem?_eq_some_iff.1 hkey
  rw [List.map_set, ← hget, List.set_getElem_self]

/-- The state stands for the latest hints, which the files in its directory hold. -/
structure Represents (p : Pass L) (b : HintBundle) (files : HintFiles) (s : HintState) : Prop where
  sorted : (s.perTypeStates.map (·.type)).Pairwise (· < ·)
  ordinary : ∀ u ∈ s.perTypeStates, isSpecialHintType u.type = false
  names : (files.map Prod.fst).Nodup
  window : ∀ u ∈ s.perTypeStates, (u.hintsFileName, storedBundle p b u.type) ∈ files ∧
    u.underlyingState.InRange (storedBundle p b u.type).hints.length
  special : ∀ u ∈ s.specialHints, isSpecialHintType u.type = true ∧
    (u.hintsFileName, storedBundle p b u.type) ∈ files ∧
      u.hintCount = (storedBundle p b u.type).hints.length

theorem insertionSort_types (l : List PerTypeHintState) (h : (l.map (·.type)).Nodup) :
    ((l.insertionSort (·.type ≤ ·.type)).map (·.type)).Pairwise (· < ·) := by
  have hperm : (l.insertionSort (·.type ≤ ·.type)).Perm l := List.perm_insertionSort _ _
  have hnodup := (hperm.map (·.type)).nodup_iff.2 h
  have htotal : Std.Total fun u v : PerTypeHintState => u.type ≤ v.type :=
    ⟨fun u v => List.le_total u.type v.type⟩
  have htrans : IsTrans PerTypeHintState fun u v => u.type ≤ v.type :=
    ⟨fun _ _ _ huv hvw => List.le_trans huv hvw⟩
  have hsorted := List.pairwise_insertionSort (fun u v : PerTypeHintState => u.type ≤ v.type) l
  rw [List.pairwise_map]
  rw [List.Nodup, List.pairwise_map] at hnodup
  exact (hsorted.and hnodup).imp fun h => (List.le_iff_lt_or_eq.1 h.1).resolve_right h.2

theorem specialStates_latest {p : Pass L} (hlatest : StoredLatest p b stored files)
    (hu : u ∈ HintState.specialStates stored) :
    isSpecialHintType u.type = true ∧ (u.hintsFileName, storedBundle p b u.type) ∈ files ∧
      u.hintCount = (storedBundle p b u.type).hints.length := by
  obtain ⟨e, he, rfl⟩ := List.mem_map.1 hu
  obtain ⟨hmem, hspecial⟩ := List.mem_filter.1 he
  refine ⟨hspecial, ?_, ?_⟩
  · rw [← hlatest.bundle e hmem]
    exact hlatest.written e hmem
  · rw [← hlatest.bundle e hmem]

theorem createSubStates_latest {p : Pass L} {m : HintMethods} (hm : m.Enumerates)
    (hlatest : StoredLatest p b stored files) (hu : u ∈ createSubStates m rnd stored) :
    isSpecialHintType u.type = false ∧ (u.hintsFileName, storedBundle p b u.type) ∈ files ∧
      u.underlyingState.InRange (storedBundle p b u.type).hints.length := by
  obtain ⟨⟨e, i⟩, hi, he⟩ := List.mem_filterMap.1 hu
  have hmem : e ∈ stored := List.mem_of_getElem? (List.mem_zipIdx_iff_getElem?.1 hi)
  split at he
  · cases he
  · rename_i hspecial
    obtain ⟨w, hw, rfl⟩ := Option.map_eq_some_iff.1 he
    refine ⟨Bool.eq_false_iff.2 hspecial, ?_, ?_⟩
    · rw [← hlatest.bundle e hmem]
      exact hlatest.written e hmem
    · rw [← hlatest.bundle e hmem]
      exact hm.inRange hw

/-- Also the two lists come from one list of stored types. -/
theorem createSubStates_types {m : HintMethods} :
    ((createSubStates m rnd stored).map (·.type)).Sublist (stored.map Prod.fst) := by
  have hkeys : ∀ (e : (Bytes × HintBundle × FileName) × Nat) (u : PerTypeHintState),
      (if isSpecialHintType e.1.1 then none
        else (m.createElementaryState (rnd e.2) e.1.2.1.hints.length).map fun w =>
          (⟨e.1.1, e.1.2.2, w⟩ : PerTypeHintState)) = some u → u.type = e.1.1 := by
    intro e u h
    split at h
    · cases h
    · obtain ⟨w, _, rfl⟩ := Option.map_eq_some_iff.1 h
      rfl
  have hsub := filterMap_keys hkeys stored.zipIdx
  have hfst : (stored.zipIdx.map fun e => e.1.1) = stored.map Prod.fst := by
    show stored.zipIdx.map (Prod.fst ∘ Prod.fst) = _
    rw [← List.map_map, List.zipIdx_map_fst]
  exact hfst ▸ hsub

theorem newFromHints_represents {p : Pass L} {m : HintMethods} (hm : m.Enumerates)
    (h : newFromHints p m rnd b std dir = .ok (some s, files)) : Represents p b files s := by
  rw [newFromHints] at h
  split at h
  · cases h
  · rw [except_bind_ok] at h
    obtain ⟨⟨stored, files'⟩, hstore, h⟩ := h
    have hlatest := storeBundle_latest hstore
    simp only at h
    split at h
    · cases h
    · cases h
      constructor
      case sorted =>
        exact insertionSort_types _ (createSubStates_types.nodup hlatest.types)
      case ordinary =>
        intro u hu
        exact (createSubStates_latest hm hlatest ((List.mem_insertionSort _).1 hu)).1
      case names => exact hlatest.names
      case window =>
        intro u hu
        exact (createSubStates_latest hm hlatest ((List.mem_insertionSort _).1 hu)).2
      case special =>
        intro u hu
        exact specialStates_latest hlatest ((List.mem_insertionSort _).1 hu)

theorem Represents.advance {p : Pass L} {s s' : HintState} (hs : Represents p b files s)
    (h : s.advance rnd = some s') : Represents p b files s' := by
  rw [HintState.advance] at h
  split at h
  · cases h
  · rename_i sub hsub
    have hmem := HintState.currentSubstate_mem hsub
    split at h
    · split at h
      · cases h
      · cases h
        constructor
        case sorted =>
          exact hs.sorted.sublist ((List.eraseIdx_sublist _ _).map _)
        case ordinary => exact fun u hu => hs.ordinary u (List.mem_of_mem_eraseIdx hu)
        case names => exact hs.names
        case window => exact fun u hu => hs.window u (List.mem_of_mem_eraseIdx hu)
        case special => exact hs.special
    · rename_i next hnext
      cases h
      obtain ⟨w, hw, rfl⟩ := Option.map_eq_some_iff.1 hnext
      constructor
      case sorted =>
        have htypes : (s.perTypeStates.set s.ptr { sub with underlyingState := w }).map (·.type) =
            s.perTypeStates.map (·.type) := map_set_same hsub rfl
        show (List.map _ (List.set _ _ _)).Pairwise _
        rw [htypes]
        exact hs.sorted
      case ordinary =>
        intro u hu
        rcases List.mem_or_eq_of_mem_set hu with hu | rfl
        · exact hs.ordinary u hu
        · exact hs.ordinary sub hmem
      case names => exact hs.names
      case window =>
        intro u hu
        rcases List.mem_or_eq_of_mem_set hu with hu | rfl
        · exact hs.window u hu
        · obtain ⟨hfile, hrange⟩ := hs.window sub hmem
          exact ⟨hfile, hrange.advance hw⟩
      case special => exact hs.special

theorem advanceSubstate_latest {p : Pass L} (hlatest : StoredLatest p b stored files)
    (hold : old.underlyingState.InRange n)
    (h : HintState.advanceSubstate stored old rnd = some u) :
    u.type = old.type ∧ (u.hintsFileName, storedBundle p b u.type) ∈ files ∧
      u.underlyingState.InRange (storedBundle p b u.type).hints.length := by
  rw [HintState.advanceSubstate] at h
  split at h
  · cases h
  · rename_i bundle file hfind
    obtain ⟨e, he, heq⟩ := Option.map_eq_some_iff.1 hfind
    have hmem := List.mem_of_find?_eq_some he
    have htype : e.1 = old.type := by simpa using List.find?_some he
    obtain ⟨w, hw, rfl⟩ := Option.map_eq_some_iff.1 h
    have hbundle : bundle = storedBundle p b old.type := by
      rw [← htype, ← hlatest.bundle e hmem, heq]
    have hwritten := hlatest.written e hmem
    rw [heq] at hwritten
    exact ⟨rfl, hbundle ▸ hwritten, hbundle ▸ hold.advanceOnSuccess hw⟩

theorem advanceOnSuccessFromHints_represents {p : Pass L} {s s' : HintState}
    (hs : Represents p b₀ files₀ s)
    (h : advanceOnSuccessFromHints p rnd b s dir = .ok (some s', files)) :
    Represents p b files s' := by
  rw [advanceOnSuccessFromHints] at h
  split at h
  · cases h
  · rw [except_bind_ok] at h
    obtain ⟨⟨stored, files'⟩, hstore, h⟩ := h
    have hlatest := storeBundle_latest hstore
    simp only [pure, Except.pure, HintState.advanceOnSuccess] at h
    split at h
    · cases h
    · cases h
      have hsub : ∀ u ∈ s.perTypeStates.zipIdx.filterMap fun e =>
          HintState.advanceSubstate stored e.1 (rnd e.2), ∃ old ∈ s.perTypeStates,
            u.type = old.type ∧ (u.hintsFileName, storedBundle p b u.type) ∈ files ∧
              u.underlyingState.InRange (storedBundle p b u.type).hints.length := by
        intro u hu
        obtain ⟨⟨old, i⟩, hi, hu⟩ := List.mem_filterMap.1 hu
        have hmem : old ∈ s.perTypeStates := List.mem_of_getElem? (List.mem_zipIdx_iff_getElem?.1 hi)
        exact ⟨old, hmem, advanceSubstate_latest hlatest (hs.window old hmem).2 hu⟩
      constructor
      case sorted =>
        have hkeys : ∀ (e : PerTypeHintState × Nat) (u : PerTypeHintState),
            HintState.advanceSubstate stored e.1 (rnd e.2) = some u → u.type = e.1.type := by
          intro e u h
          rw [HintState.advanceSubstate] at h
          split at h
          · cases h
          · obtain ⟨w, _, rfl⟩ := Option.map_eq_some_iff.1 h
            rfl
        have hfst : (s.perTypeStates.zipIdx.map fun e => e.1.type) = s.perTypeStates.map (·.type) := by
          show s.perTypeStates.zipIdx.map ((·.type) ∘ Prod.fst) = _
          rw [← List.map_map, List.zipIdx_map_fst]
        exact hs.sorted.sublist (hfst ▸ filterMap_keys hkeys s.perTypeStates.zipIdx)
      case ordinary =>
        intro u hu
        obtain ⟨old, hold, htype, _⟩ := hsub u hu
        rw [htype]
        exact hs.ordinary old hold
      case names => exact hlatest.names
      case window =>
        intro u hu
        obtain ⟨_, _, _, hu⟩ := hsub u hu
        exact hu
      case special =>
        intro u hu
        exact specialStates_latest hlatest ((List.mem_insertionSort _).1 hu)

/-- `load_hints` finds the hints of the window, wherever the bundle is stored. -/
def LoadsWindow (b : HintBundle) (u : ElementaryState) : Prop :=
  ∀ (lib : StorageLibrary) (s : HintStorage) (c : StoreCall), lib.Documented →
    suffix c.path = ".zst".toList → c.bundle = b → (storeHints lib s c).1 = .ok () →
      loadHints lib (storeHints lib s c).2 c.path (some u.index) (some u.end) =
        .ok { b with hints := (b.hints.drop u.index).take (u.end - u.index) }

theorem ElementaryState.InRange.loadsWindow {u : ElementaryState} (h : u.InRange b.hints.length) :
    LoadsWindow b u := by
  rintro lib s c hlib hzst rfl hok
  obtain ⟨hlt, hle⟩ := h.window
  obtain ⟨chunks, words, t₀, t₁, ts, hfile, hlines, hchunks⟩ := storeHints_ok hok
  apply loadHints_stored hlib hzst hfile hlines hchunks
  refine ⟨Nat.le_trans (Nat.le_of_lt hlt) hle, ?_⟩
  rintro _ ⟨⟩
  exact ⟨hlt, hle⟩

/-- A state that came about by a run of the operations, with the latest hints and the files that were
written to its directory. An operation works on its own copy of the state. -/
structure HintRun where
  bundle : HintBundle
  files : HintFiles
  state : HintState

/-- The runs of a hint-based pass, whatever its calls of `generate_hints` return. -/
inductive HintRun.Reached (p : Pass L) (m : HintMethods) : HintRun → Prop
  | new (h : newFromHints p m rnd b std tmpDir = .ok (some s, fs)) : Reached p m ⟨b, fs, s⟩
  | advance (hr : Reached p m ⟨b, fs, s⟩) (h : s.advance rnd = some s') : Reached p m ⟨b, fs, s'⟩
  | advanceOnSuccess (hr : Reached p m ⟨b, fs, s⟩)
      (h : advanceOnSuccessFromHints p rnd b' s newTmpDir = .ok (some s', fs')) :
      Reached p m ⟨b', fs', s'⟩

theorem HintRun.Reached.represents {p : Pass L} {m : HintMethods} (hm : m.Enumerates)
    (hr : Reached p m r) : Represents p r.bundle r.files r.state := by
  induction hr with
  | new h => exact newFromHints_represents hm h
  | advance _ h ih => exact ih.advance h
  | advanceOnSuccess _ h ih => exact advanceOnSuccessFromHints_represents ih h

theorem hintState_invariant (p : Pass L) (m : HintMethods) (hm : m.Enumerates) (r : HintRun)
    (hr : r.Reached p m) :
    (r.state.perTypeStates.map (·.type)).Pairwise (· < ·) ∧
      (∀ u ∈ r.state.perTypeStates, isSpecialHintType u.type = false) ∧
      (r.state.perTypeStates ≠ [] → r.state.ptr < r.state.perTypeStates.length) ∧
      (r.files.map Prod.fst).Nodup ∧
      (∀ u ∈ r.state.perTypeStates, ∃ b, (u.hintsFileName, b) ∈ r.files ∧
        b = storedBundle p r.bundle u.type ∧ b.hints.Pairwise (·.comparisonKey ≤ ·.comparisonKey) ∧
          u.underlyingState.index < u.underlyingState.end ∧
          u.underlyingState.end ≤ b.hints.length ∧ LoadsWindow b u.underlyingState) ∧
      ∀ u ∈ r.state.specialHints, isSpecialHintType u.type = true ∧ ∃ b,
        (u.hintsFileName, b) ∈ r.files ∧ b = storedBundle p r.bundle u.type ∧
          b.hints.Pairwise (·.comparisonKey ≤ ·.comparisonKey) ∧ u.hintCount = b.hints.length := by
  have hs := hr.represents hm
  refine ⟨hs.sorted, hs.ordinary, r.state.ptr_lt, hs.names, ?_, ?_⟩
  · intro u hu
    obtain ⟨hfile, hrange⟩ := hs.window u hu
    obtain ⟨hlt, hle⟩ := hrange.window
    exact ⟨_, hfile, rfl, sortHints_sorted _, hlt, hle, hrange.loadsWindow⟩
  · intro u hu
    obtain ⟨hspecial, hfile, hcount⟩ := hs.special u hu
    exact ⟨hspecial, _, hfile, rfl, sortHints_sorted _, hcount⟩

/-- Two hints of the type `a` and one each of `b` and `@t`. -/
def threeTypes : HintBundle where
  hints := [{ type := some 1 }, { type := some 0, patches := [{ left := some 2, right := some 3 }] },
    { type := some 2 }, { type := some 0, patches := [{ left := some 0, right := some 1 }] }]
  vocabulary := [[0x61], [0x62], [0x40, 0x74]]

theorem threeTypes_typed : threeTypes.TypesIn [[0x61], [0x62], [0x40, 0x74]] := by
  intro h hh type htype
  have hmem : type ∈ [[0x61], [0x62], [0x40, 0x74]] := by
    simp only [threeTypes, List.mem_cons, List.not_mem_nil, or_false] at hh
    rcases hh with rfl | rfl | rfl | rfl <;> cases htype <;> decide
  exact .inr hmem

def threeTypesMethods : HintMethods :=
  constantHints [] [[0x61], [0x62], [0x40, 0x74]] threeTypes nil_not_mem_nil threeTypes_typed

def threeTypesPass : Pass Nat where
  repr := "ThreeTypesPass".toList
  userVisibleName := "ThreeTypesPass".toList
  methods := .hint threeTypesMethods

def storedFiles (b : HintBundle) : HintFiles :=
  match storeBundle threeTypesPass b with
  | .ok stored => stored.2
  | .error _ => []

/-- The file of `a` is the first one after the hint of `b` is gone. -/
def withoutB : HintBundle := { threeTypes with hints := threeTypes.hints.drop 1 }

def windowA (chunk index : Nat) (hchunk : 0 < chunk) (file : FileName) : PerTypeHintState :=
  ⟨[0x61], file, .binary ⟨2, chunk, index, hchunk⟩⟩

def windowB : PerTypeHintState := ⟨[0x62], 0, .binary ⟨1, 1, 0, Nat.one_pos⟩⟩

/-- After an attempt for `a`, one for `b` succeeds and leaves no hint of it. -/
def threeTypesRun : HintRun where
  bundle := withoutB
  files := storedFiles withoutB
  state := ⟨2, [windowA 1 0 Nat.one_pos 0], 0, [⟨[0x40, 0x74], 1, 1⟩], none, by decide⟩

theorem threeTypesRun_reached : threeTypesRun.Reached threeTypesPass threeTypesMethods := by
  let before : HintState := .create 1 [windowA 2 0 (by decide) 1, windowB] [⟨[0x40, 0x74], 2, 1⟩] none
  let after : HintState :=
    ⟨1, [windowA 1 0 (by decide) 1, windowB], 1, [⟨[0x40, 0x74], 2, 1⟩], none, by decide⟩
  have hnew : newFromHints threeTypesPass threeTypesMethods (fun _ => 0) threeTypes none 1 =
      .ok (some before, storedFiles threeTypes) := rfl
  have hadvance : before.advance 0 = some after := rfl
  have hsuccess : advanceOnSuccessFromHints threeTypesPass (fun _ => 0) withoutB after 2 =
      .ok (some threeTypesRun.state, storedFiles withoutB) := rfl
  exact .advanceOnSuccess (.advance (.new hnew) hadvance) hsuccess

theorem hintState_invariant_threeTypes :
    (threeTypesRun.state.perTypeStates.map (·.type)).Pairwise (· < ·) ∧
      LoadsWindow (storedBundle threeTypesPass withoutB [0x61]) (.binary ⟨2, 1, 0, by decide⟩) := by
  have hm : threeTypesMethods.Enumerates := by
    intro rnd n u h
    obtain ⟨s, hs, rfl⟩ := Option.map_eq_some_iff.1 h
    exact .inl ⟨s, hs, rfl⟩
  obtain ⟨htypes, _, _, _, hwindow, _⟩ :=
    hintState_invariant threeTypesPass threeTypesMethods hm threeTypesRun threeTypesRun_reached
  obtain ⟨_, _, rfl, _, _, _, hloads⟩ := hwindow (windowA 1 0 (by decide) 0) List.mem_cons_self
  exact ⟨htypes, hloads⟩

end Cvise
