import Cvise.ApplyHintsReference
import Cvise.ApplyFrame
import Cvise.Dict
import Cvise.PositionShift

namespace Cvise
set_option autoImplicit true

/-- `path_to_queries`, as the list of the patches with their paths. -/
def collectQueries (b : HintBundle) : Except PyErr (List (RelPath × Patch)) :=
  (b.hints.flatMap Hint.patches).mapM fun p => do return (← b.pathOf p, p)

def Patch.positions (p : Patch) : List Nat := p.left.toList ++ p.right.toList

/-- `path_to_queries[path]`. -/
def queriesAt (queries : List (RelPath × Patch)) (path : RelPath) : List Nat :=
  (queries.filter (·.1 = path)).flatMap fun q => q.2.positions

/-- `to_insert`, the length of the word that is the value. -/
def toInsert (bundles : List HintBundle) (ref : PatchRef) : Except PyErr Nat :=
  match ref.patch.value with
  | none => return 0
  | some v => return (← (bundleAt bundles ref).word v).length

/-- What a patch adds to `position_delta`. -/
def deltaOf (bundles : List HintBundle) (ref : PatchRef) : Except PyErr Int :=
  match ref.patch.left, ref.patch.right with
  | some left, some right => return ((← toInsert bundles ref) : Int) - ((right : Int) - left)
  | _, _ => return 0

/-- The `while` loop of `_calc_positions_mapping_for_patches`: the new `position_delta`, and the
merged patches from `ptr` on. -/
def applyUntil (bundles : List HintBundle) (query : Nat) (positionDelta : Int) :
    List PatchRef → Except PyErr (Int × List PatchRef)
  | [] => .ok (positionDelta, [])
  | ref :: refs =>
    if ref.patch.right.getD 0 ≤ query then do
      applyUntil bundles query (positionDelta + (← deltaOf bundles ref)) refs
    else .ok (positionDelta, ref :: refs)

/-- `new_pos`, given the merged patches that were not applied yet. -/
def newPos (query : Nat) (positionDelta : Int) (refs : List PatchRef) : Int :=
  match refs.head?.bind (·.patch.left) with
  | none => query + positionDelta
  | some nextLeft =>
    if nextLeft < query then query + positionDelta - ((query : Int) - nextLeft)
    else query + positionDelta

def calcPositions (bundles : List HintBundle) (positionDelta : Int) (refs : List PatchRef) :
    List Nat → Except PyErr (Dict Nat Int)
  | [] => .ok []
  | query :: queries => do
    let (delta, rest) ← applyUntil bundles query positionDelta refs
    return (query, newPos query delta rest) :: (← calcPositions bundles delta rest queries)

def calcPositionsMappingForPatches (queries : List Nat) (patches : List PatchRef)
    (bundles : List HintBundle) : Except PyErr (Dict Nat Int) :=
  calcPositions bundles 0 (mergeOverlappingPatches patches)
    (queries.eraseDups.insertionSort (· ≤ ·))

/-- The patch at its new positions. These are not negative for patches that have ranges. -/
def shiftPatch (mappings : Dict RelPath (Dict Nat Int)) (b : HintBundle) (p : Patch) :
    Except PyErr Patch := do
  let mapping ← lookupKey mappings (← b.pathOf p)
  let left ← p.left.mapM (lookupKey mapping)
  let right ← p.right.mapM (lookupKey mapping)
  return { p with left := left.map Int.toNat, right := right.map Int.toNat }

def Patch.isKept (p : Patch) : Bool :=
  match p.left, p.right with
  | some left, some right => left < right || left = right && p.operation.isSome
  | _, _ => true

def shiftHint (mappings : Dict RelPath (Dict Nat Int)) (b : HintBundle) (h : Hint) :
    Except PyErr Hint := do
  let patches ← h.patches.mapM (shiftPatch mappings b)
  return { h with patches := patches.filter Patch.isKept }

def subtractHints (sourceBundle : HintBundle) (bundlesToSubtract : List HintBundle) :
    Except PyErr HintBundle := do
  let queries ← collectQueries sourceBundle
  let subtrahends ← collectPatches bundlesToSubtract
  let mappings ← (queries.map Prod.fst).eraseDups.mapM fun path => do
    return (path, ← calcPositionsMappingForPatches (queriesAt queries path) (subtrahends.at path)
      bundlesToSubtract)
  let hints ← sourceBundle.hints.mapM (shiftHint mappings sourceBundle)
  return { sourceBundle with hints := hints }

variable {bundles : List HintBundle} {refs : List PatchRef} {r : PatchRef} {paths : PathToPatches}
  {b : HintBundle}

theorem Sized.span (h : Sized bundles r) : ∃ left right, r.patch.left = some left ∧
    r.patch.right = some right ∧ r.span = ⟨left, right, r.stamp⟩ := by
  obtain ⟨left, hl⟩ := Option.isSome_iff_exists.1 h.left_some
  obtain ⟨right, hr⟩ := Option.isSome_iff_exists.1 h.right_some
  exact ⟨left, right, hl, hr, by rw [PatchRef.span, hl, hr, Option.getD_some, Option.getD_some]⟩

theorem Sized.deltaOf (h : Sized bundles r) : deltaOf bundles r =
    .ok ((insertedBytes bundles r).length - ((r.span.right : Int) - r.span.left)) := by
  obtain ⟨left, right, hl, hr, hspan⟩ := h.span
  have hins : toInsert bundles r = .ok (insertedBytes bundles r).length := by
    rw [toInsert, insertedBytes]
    cases hv : r.patch.value with
    | none => rfl
    | some v =>
      obtain ⟨w, hw⟩ := word_of_lt (h.value v hv)
      simp only [hw, vocabulary_getD hw]
      rfl
  simp only [Cvise.deltaOf, hl, hr, hins, hspan]
  rfl

/-- The merged patches that the loop applies move the later positions as one pass over all of
them would. -/
theorem applyUntil_shifted (hm : ∀ m ∈ refs, Sized bundles m) (q : Nat) (delta : Int) :
    ∃ delta' rest, applyUntil bundles q delta refs = .ok (delta', rest) ∧ rest <:+ refs ∧
      newPos q delta' rest = shifted (insertedBytes bundles) q delta (spansOf refs) ∧
      ∀ q', q ≤ q' → shifted (insertedBytes bundles) q' delta (spansOf refs) =
        shifted (insertedBytes bundles) q' delta' (spansOf rest) := by
  induction refs generalizing delta with
  | nil => exact ⟨delta, [], rfl, List.suffix_rfl, rfl, fun _ _ => rfl⟩
  | cons m ms ih =>
    obtain ⟨hm, hms⟩ := List.forall_mem_cons.1 hm
    obtain ⟨left, right, hl, hr, hspan⟩ := hm.span
    have hdelta := hm.deltaOf
    rw [hspan] at hdelta
    by_cases hq : right ≤ q
    · obtain ⟨delta', rest, hok, hsuf, hpos, hlater⟩ := ih hms
        (delta + (((insertedBytes bundles m).length : Int) - ((right : Int) - left)))
      have hstep : ∀ q', q ≤ q' → shifted (insertedBytes bundles) q' delta (spansOf (m :: ms)) =
          shifted (insertedBytes bundles) q'
            (delta + (((insertedBytes bundles m).length : Int) - ((right : Int) - left)))
            (spansOf ms) := by
        intro q' hq'
        rw [spansOf, List.map_cons, hspan, shifted, if_pos (hq.trans hq')]
        rfl
      apply Exists.intro delta'
      apply Exists.intro rest
      apply And.intro
      · rw [applyUntil, hr, Option.getD_some, if_pos hq, hdelta]
        exact hok
      · exact ⟨hsuf.trans (List.suffix_cons _ _), hpos.trans (hstep q le_rfl).symm,
          fun q' hq' => (hstep q' hq').trans (hlater q' hq')⟩
    · apply Exists.intro delta
      apply Exists.intro (m :: ms)
      apply And.intro
      · rw [applyUntil, hr, Option.getD_some, if_neg hq]
      · apply And.intro List.suffix_rfl
        apply And.intro _ fun _ _ => rfl
        rw [newPos, List.head?_cons, Option.bind_some, hl, spansOf, List.map_cons, hspan, shifted,
          if_neg hq]

theorem calcPositions_shifted (hm : ∀ m ∈ refs, Sized bundles m) {queries : List Nat}
    (hq : queries.Pairwise (· ≤ ·)) (delta : Int) :
    calcPositions bundles delta refs queries = .ok (queries.map fun q =>
      (q, shifted (insertedBytes bundles) q delta (spansOf refs))) := by
  induction queries generalizing refs delta with
  | nil => rfl
  | cons q queries ih =>
    obtain ⟨hle, hq⟩ := List.pairwise_cons.1 hq
    obtain ⟨delta', rest, hok, hsuf, hpos, hlater⟩ := applyUntil_shifted hm q delta
    have hrest := ih (fun m hmem => hm m (hsuf.subset hmem)) hq delta'
    have hmap : queries.map (fun q => (q, shifted (insertedBytes bundles) q delta' (spansOf rest))) =
        queries.map fun q => (q, shifted (insertedBytes bundles) q delta (spansOf refs)) :=
      List.map_congr_left fun q' hq' => by rw [hlater q' (hle q' hq')]
    simp only [calcPositions, hok, bind, Except.bind, hrest, hpos, hmap]
    rfl

/-- The mapping moves each position by one pass over the merged patches. -/
theorem calcPositionsMapping_shifted (queries : List Nat)
    (hm : ∀ m ∈ mergeOverlappingPatches refs, Sized bundles m) :
    ∃ mapping, calcPositionsMappingForPatches queries refs bundles = .ok mapping ∧
      ∀ q ∈ queries, lookupKey mapping q = .ok
        (shifted (insertedBytes bundles) q 0 (spansOf (mergeOverlappingPatches refs))) := by
  have hsorted : (queries.eraseDups.insertionSort (· ≤ ·)).Pairwise (· ≤ ·) :=
    List.pairwise_insertionSort _ _
  apply Exists.intro _
  apply And.intro (calcPositions_shifted hm hsorted 0)
  intro q hq
  apply lookupKey_map
  exact (List.mem_insertionSort _).2 (List.mem_eraseDups.2 hq)

/-- Where position `q` of a file goes. -/
def newPosition (bundles : List HintBundle) (paths : PathToPatches) (path : RelPath) (q : Nat) : Nat :=
  (shifted (insertedBytes bundles) q 0 (spansOf (mergeOverlappingPatches (paths.at path)))).toNat

def Patch.moved (g : Nat → Nat) (p : Patch) : Patch :=
  { p with left := p.left.map g, right := p.right.map g }

/-- The path of a patch whose path can be decoded. -/
def HintBundle.pathAt (b : HintBundle) (p : Patch) : RelPath := (b.pathOf p).toOption.getD []

def movedHint (b : HintBundle) (g : RelPath → Nat → Nat) (h : Hint) : Hint :=
  { h with patches := (h.patches.map fun p => p.moved (g (b.pathAt p))).filter Patch.isKept }

theorem except_mapM_eq {f : α → Except ε β} {g : α → β} {xs : List α}
    (h : ∀ x ∈ xs, f x = .ok (g x)) : xs.mapM f = .ok (xs.map g) := by
  induction xs with
  | nil => rfl
  | cons x xs ih =>
    obtain ⟨hx, hxs⟩ := List.forall_mem_cons.1 h
    rw [List.mapM_cons, hx, List.map_cons]
    simp only [bind, Except.bind, ih hxs]
    rfl

theorem optionMapM_eq {f : Nat → Except PyErr Int} {g : Nat → Int} {x : Option Nat}
    (h : ∀ q ∈ x, f q = .ok (g q)) : x.mapM f = .ok (x.map g) := by
  cases x with
  | none => rfl
  | some q =>
    have hq : some <$> f q = .ok (some (g q)) := by
      rw [h q rfl]
      rfl
    exact hq

theorem subtractHints_eq (hpath : ∀ h ∈ b.hints, ∀ p ∈ h.patches, ∃ path, b.pathOf p = .ok path)
    (hc : collectPatches bundles = .ok paths)
    (hsized : ∀ path, ∀ m ∈ mergeOverlappingPatches (paths.at path), Sized bundles m) :
    subtractHints b bundles =
      .ok { b with hints := b.hints.map (movedHint b (newPosition bundles paths)) } := by
  have hat : ∀ h ∈ b.hints, ∀ p ∈ h.patches, b.pathOf p = .ok (b.pathAt p) := by
    intro h hh p hp
    obtain ⟨path, hok⟩ := hpath h hh p hp
    rw [HintBundle.pathAt, hok]
    rfl
  have hqueries : collectQueries b =
      .ok ((b.hints.flatMap Hint.patches).map fun p => (b.pathAt p, p)) := by
    apply except_mapM_eq
    intro p hp
    obtain ⟨h, hh, hp⟩ := List.mem_flatMap.1 hp
    rw [hat h hh p hp]
    rfl
  generalize hqs : (b.hints.flatMap Hint.patches).map (fun p => (b.pathAt p, p)) = queries
    at hqueries
  have hcalc : ∀ path, ∃ mapping, calcPositionsMappingForPatches (queriesAt queries path)
      (paths.at path) bundles = .ok mapping := by
    intro path
    obtain ⟨mapping, hok, _⟩ := calcPositionsMapping_shifted (queriesAt queries path) (hsized path)
    exact ⟨mapping, hok⟩
  obtain ⟨mappings, hmappings⟩ := except_mapM_isOk.2 (fun path (_ : path ∈
    (queries.map Prod.fst).eraseDups) => except_bind_isOk.2 (by
      obtain ⟨mapping, hok⟩ := hcalc path
      exact ⟨mapping, hok, (path, mapping), rfl⟩))
  have hpatch : ∀ h ∈ b.hints, ∀ p ∈ h.patches, shiftPatch mappings b p =
      .ok (p.moved (newPosition bundles paths (b.pathAt p))) := by
    intro h hh p hp
    have hmem : (b.pathAt p, p) ∈ queries := by
      rw [← hqs]
      exact List.mem_map_of_mem (List.mem_flatMap.2 ⟨h, hh, hp⟩)
    obtain ⟨mapping, hok, hall⟩ :=
      calcPositionsMapping_shifted (queriesAt queries (b.pathAt p)) (hsized (b.pathAt p))
    have hlook : lookupKey mappings (b.pathAt p) = .ok mapping :=
      lookupKey_mapM hmappings (List.mem_eraseDups.2 (List.mem_map_of_mem hmem)) hok
    have hpos : ∀ q ∈ p.positions, lookupKey mapping q = .ok (shifted (insertedBytes bundles) q 0
        (spansOf (mergeOverlappingPatches (paths.at (b.pathAt p))))) := by
      intro q hq
      apply hall
      exact List.mem_flatMap.2 ⟨_, List.mem_filter.2 ⟨hmem, by simp⟩, hq⟩
    rw [shiftPatch, hat h hh p hp]
    simp only [bind, Except.bind, hlook]
    rw [optionMapM_eq fun q hq => hpos q (by simp [Patch.positions, Option.mem_def.1 hq]),
      optionMapM_eq fun q hq => hpos q (by simp [Patch.positions, Option.mem_def.1 hq])]
    simp only [pure, Except.pure, Option.map_map, Patch.moved]
    rfl
  have hhints : b.hints.mapM (shiftHint mappings b) =
      .ok (b.hints.map (movedHint b (newPosition bundles paths))) := by
    apply except_mapM_eq
    intro h hh
    rw [shiftHint, except_mapM_eq (hpatch h hh)]
    rfl
  exact except_bind_ok.2 ⟨_, hqueries, except_bind_ok.2 ⟨_, hc, except_bind_ok.2 ⟨_, hmappings,
    except_bind_ok.2 ⟨_, hhints, rfl⟩⟩⟩⟩

example : (subtractHints { hints := [{ patches := [{ left := some 4, right := some 7 }] },
        { patches := [{ left := some 8, right := some 9 }] }] }
      [{ hints := [{ patches := [{ left := some 2, right := some 3 }] },
        { patches := [{ left := some 8, right := some 9 }] }] }]).toOption =
    some { hints := [{ patches := [{ left := some 3, right := some 6 }] }, {}] } := by decide

end Cvise
