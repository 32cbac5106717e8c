import Cvise.CutPositions
import Cvise.ModuleMapHints

namespace Cvise
set_option autoImplicit true

namespace ClangModuleMapPass

open MakefileParser MakefilePass

variable {env : Env} {tc : TestCase} {g g' : MakefilePass.Generated} {c : Blocks TextWithLoc}
  {inside : Bool} {path : RelPath} {data : Bytes} {ranges : List (List SourceLoc)} {pathId : Nat}

/-- A hint that deletes ranges of the file that go together. -/
def IsFor (pathId : Nat) (ranges : List (List SourceLoc)) (h : Hint) : Prop :=
  ∃ locs ∈ ranges, h.patches = locsToPatches locs pathId

theorem IsFor.mono (h : IsFor pathId ranges x) (hsub : ∀ locs ∈ ranges, locs ∈ ranges') :
    IsFor pathId ranges' x := by
  obtain ⟨locs, hlocs, hpatches⟩ := h
  exact ⟨locs, hsub locs hlocs, hpatches⟩

theorem grows_hint (g : MakefilePass.Generated) (h : IsFor pathId ranges x) :
    Grows (IsFor pathId ranges) g { g with hints := g.hints ++ [x] } :=
  (grows_hints g [x]).mono fun y hy => by
    obtain rfl := List.mem_singleton.1 hy
    exact h

theorem grows_foldl {f : MakefilePass.Generated → β → MakefilePass.Generated} {xs : List β}
    (hf : ∀ g, ∀ x ∈ xs, Grows new g (f g x)) : Grows new g (xs.foldl f g) := by
  induction xs generalizing g with
  | nil => exact Grows.refl new g
  | cons x xs ih =>
    obtain ⟨hx, hxs⟩ := forall_and.1 fun g => List.forall_mem_cons.1 (hf g)
    exact (hx g).trans (ih hxs)

theorem grows_if [Decidable p] (h : p → Grows new g g') :
    Grows new g (if p then g' else g) := by
  split
  · exact h ‹p›
  · exact Grows.refl new g

/-- The ranges of the hints of a module but for those of its submodules. -/
def ownRanges (toplevel : Bool) (mod : ModuleDecl) : List (List SourceLoc) :=
  (if toplevel then [] else
    [if mod.headers = [] ∧ mod.uses = [] ∧ mod.submodules.isEmpty then [mod.loc]
      else [mod.titleLoc, mod.closeBraceLoc]]) ++
    (mod.headers.map (fun header => [header.loc]) ++ mod.uses.map fun use => [use.loc])

theorem ownHints_grows (env : Env) (pathId : Nat) (toplevel : Bool) (mod : ModuleDecl)
    (g : MakefilePass.Generated) :
    Grows (IsFor pathId (ownRanges toplevel mod)) g (ownHints env pathId toplevel mod g) := by
  have hhead {locs : List SourceLoc} (htop : toplevel = false)
      (hlocs : locs = if mod.headers = [] ∧ mod.uses = [] ∧ mod.submodules.isEmpty then [mod.loc]
        else [mod.titleLoc, mod.closeBraceLoc]) : locs ∈ ownRanges toplevel mod := by
    rw [ownRanges, htop, hlocs]
    exact List.mem_append_left _ (List.mem_singleton_self _)
  have hheader (header : HeaderDecl) (h : header ∈ mod.headers) :
      [header.loc] ∈ ownRanges toplevel mod :=
    List.mem_append_right _ (List.mem_append_left _ (List.mem_map_of_mem h))
  have huse (use : UseDecl) (h : use ∈ mod.uses) : [use.loc] ∈ ownRanges toplevel mod :=
    List.mem_append_right _ (List.mem_append_right _ (List.mem_map_of_mem h))
  rw [ownHints]
  refine Grows.trans (Grows.trans (Grows.trans (grows_if fun h => ?_) (grows_if fun h => ?_))
    (grows_foldl fun g header hh => ?_))
    ((grows_hints _ _).mono fun x hx => ?_)
  · refine grows_hint g ⟨_, hhead (Bool.eq_false_iff.2 h.1) ?_, rfl⟩
    rw [if_pos (by simpa [and_assoc] using h.2)]
  · refine grows_hint _ ⟨_, hhead (Bool.eq_false_iff.2 h.1) ?_, rfl⟩
    rw [if_neg (by simpa [and_assoc] using h.2)]
  · exact (grows_if fun _ => (getVocabId_grows _ _ g).trans
      (grows_hint _ ⟨_, hheader header hh, rfl⟩)).trans (grows_hint _ ⟨_, hheader header hh, rfl⟩)
  · obtain ⟨use, hin, rfl⟩ := List.mem_map.1 hx
    exact ⟨_, huse use hin, rfl⟩

theorem headerOf_loc (h : header ∈ headerOf l) : header.loc = l.loc := by
  rw [headerOf] at h
  split at h
  · obtain rfl := List.mem_singleton.1 h
    rfl
  · cases h

theorem useOf_loc (h : use ∈ useOf l) : use.loc = l.loc := by
  rw [useOf] at h
  split at h
  · obtain rfl := List.mem_singleton.1 h
    rfl
  · cases h

theorem mem_rangesIn_topLines (inside : Bool) (h : l ∈ c.topLines) :
    [l.loc] ∈ rangesIn inside c := by
  induction c with
  | nil => cases h
  | line a rest ih =>
    rcases List.mem_cons.1 h with rfl | h
    · exact List.mem_cons_self
    · exact List.mem_cons_of_mem _ (ih h)
  | block a body close rest _ ih =>
    exact List.mem_append_right _ (List.mem_append_right _ (ih h))

theorem mem_rangesIn_unclassified (h : loc ∈ unclassifiedIn inside c) :
    [loc] ∈ rangesIn inside c := by
  induction c generalizing inside with
  | nil => cases h
  | line a rest ih =>
    rcases List.mem_append.1 h with h | h
    · rw [unclassifiedOf] at h
      split at h
      · obtain rfl := List.mem_singleton.1 h
        exact List.mem_cons_self
      · cases h
    · exact List.mem_cons_of_mem _ (ih h)
  | block a body close rest ihb ihr =>
    refine List.mem_append_right _ ?_
    rcases List.mem_append.1 h with h | h
    · exact List.mem_append_left _ (ihb h)
    · exact List.mem_append_right _ (ihr h)

/-- The hints for the modules of a text delete ranges of the text. -/
theorem createHintsForModules_grows (env : Env) (pathId : Nat) (toplevel : Bool)
    (c : Blocks TextWithLoc) (g : MakefilePass.Generated) :
    Grows (IsFor pathId (rangesIn (!toplevel) c)) g
      (createHintsForModules env pathId toplevel (modulesIn c) g) := by
  induction c generalizing toplevel g with
  | nil => exact Grows.refl _ g
  | line a rest ih =>
    exact (ih toplevel g).mono fun x hx => hx.mono fun _ => List.mem_cons_of_mem _
  | block a body close rest ihb ihr =>
    rw [modulesIn, createHintsForModules, createHintsForModule]
    refine Grows.trans (Grows.trans ((ownHints_grows _ _ _ _ _).mono fun x hx => hx.mono ?_)
      ((ihb false _).mono fun x hx => hx.mono fun _ h => ?_))
      ((ihr toplevel _).mono fun x hx => hx.mono fun _ h => ?_)
    · intro locs h
      rw [rangesIn]
      rcases List.mem_append.1 h with h | h
      · cases toplevel with
        | true => cases h
        | false => exact List.mem_append_left _ h
      · refine List.mem_append_right _ (List.mem_append_left _ ?_)
        rcases List.mem_append.1 h with h | h
        · obtain ⟨header, hheader, rfl⟩ := List.mem_map.1 h
          obtain ⟨l, hl, hheader⟩ := List.mem_flatMap.1 hheader
          rw [headerOf_loc hheader]
          exact mem_rangesIn_topLines true hl
        · obtain ⟨use, huse, rfl⟩ := List.mem_map.1 h
          obtain ⟨l, hl, huse⟩ := List.mem_flatMap.1 huse
          rw [useOf_loc huse]
          exact mem_rangesIn_topLines true hl
    · exact List.mem_append_right _ (List.mem_append_left _ h)
    · exact List.mem_append_right _ (List.mem_append_right _ h)

/-- There is a hint that deletes the ranges. -/
def Offered (pathId : Nat) (g : MakefilePass.Generated) (locs : List SourceLoc) : Prop :=
  ∃ h ∈ g.hints, h.patches = locsToPatches locs pathId

theorem Offered.grows (h : Offered pathId g locs) (hg : Grows new g g') :
    Offered pathId g' locs := by
  obtain ⟨x, hx, hpatches⟩ := h
  exact ⟨x, hg.kept x hx, hpatches⟩

theorem offered_hint (type pathId : Nat) (locs : List SourceLoc) (g : MakefilePass.Generated) :
    Offered pathId { g with hints := g.hints ++ [deletionHint type pathId locs] } locs :=
  ⟨_, List.mem_append_right _ (List.mem_singleton_self _), rfl⟩

theorem offered_foldl {f : MakefilePass.Generated → β → MakefilePass.Generated} {xs : List β}
    (hx : x ∈ xs) (hf : ∀ g, Offered pathId (f g x) locs)
    (hgrows : ∀ g, ∀ x ∈ xs, Grows (fun _ => True) g (f g x)) :
    Offered pathId (xs.foldl f g) locs := by
  obtain ⟨before, after, rfl⟩ := List.append_of_mem hx
  rw [List.foldl_append, List.foldl_cons]
  exact (hf _).grows (grows_foldl fun g y hy =>
    hgrows g y (List.mem_append_right _ (List.mem_cons_of_mem _ hy)))

theorem grows_any (g : MakefilePass.Generated) (hs : List Hint) :
    Grows (fun _ => True) g { g with hints := g.hints ++ hs } :=
  (grows_hints g hs).mono fun _ _ => trivial

theorem ownHints_offers (env : Env) (g : MakefilePass.Generated) {mod : ModuleDecl}
    (h : locs ∈ ownRanges toplevel mod) :
    Offered pathId (ownHints env pathId toplevel mod g) locs := by
  rw [ownHints]
  rcases List.mem_append.1 h with h | h
  · refine Offered.grows ?_ (Grows.trans (grows_foldl fun g header hh => ?_) (grows_any _ _))
    · cases toplevel with
      | true => cases h
      | false =>
        obtain rfl := List.mem_singleton.1 h
        by_cases hempty : mod.headers = [] ∧ mod.uses = [] ∧ mod.submodules.isEmpty = true
        · have hempty' : (mod.headers.isEmpty && mod.uses.isEmpty && mod.submodules.isEmpty) =
              true := by simpa [and_assoc] using hempty
          rw [if_pos hempty, if_neg fun h => h.2 hempty', if_pos ⟨Bool.false_ne_true, hempty'⟩]
          exact offered_hint 3 pathId _ g
        · have hempty' : ¬ (mod.headers.isEmpty && mod.uses.isEmpty && mod.submodules.isEmpty) =
              true := by simpa [and_assoc] using hempty
          rw [if_neg hempty, if_pos ⟨Bool.false_ne_true, hempty'⟩]
          exact offered_hint 4 pathId _ _
    · exact (grows_if fun _ => (getVocabId_grows _ _ g).trans (grows_any _ _)).trans
        (grows_any _ _)
  · rcases List.mem_append.1 h with h | h
    · obtain ⟨header, hheader, rfl⟩ := List.mem_map.1 h
      refine Offered.grows (offered_foldl hheader (fun g => offered_hint 1 pathId _ _)
        fun g x _ => ?_) (grows_any _ _)
      exact (grows_if fun _ => (getVocabId_grows _ _ g).trans (grows_any _ _)).trans
        (grows_any _ _)
    · obtain ⟨use, huse, rfl⟩ := List.mem_map.1 h
      exact ⟨_, List.mem_append_right _ (List.mem_map_of_mem huse), rfl⟩

theorem line_classified {a : TextWithLoc} (hplain : lineRole inside a.value = .plain)
    (h : IsReadable inside a.value) : a.loc ∈ unclassifiedOf inside a ∨
      inside = true ∧ (a.loc ∈ (headerOf a).map (·.loc) ∨ a.loc ∈ (useOf a).map (·.loc)) := by
  cases inside with
  | false =>
    refine .inl ?_
    rw [unclassifiedOf, if_pos (lineKind_outside hplain h)]
    exact List.mem_singleton_self _
  | true =>
    obtain ⟨kind, hkind⟩ := h
    rw [lineRole, hkind] at hplain
    cases kind with
    | module id => cases hplain
    | closeBrace => cases hplain
    | header filePath => exact .inr ⟨rfl, .inl (by simp [headerOf, hkind])⟩
    | use id => exact .inr ⟨rfl, .inr (by simp [useOf, hkind])⟩
    | unclassified => exact .inl (by simp [unclassifiedOf, hkind])

/-- Each range of a text has a hint for a module of the text, or is a line of the module around it
or of none. -/
theorem createHintsForModules_offers (env : Env) (pathId : Nat) (hreads : ReadsAs inside c)
    (h : Readable inside c) (hlocs : locs ∈ rangesIn inside c) (g : MakefilePass.Generated) :
    Offered pathId (createHintsForModules env pathId (!inside) (modulesIn c) g) locs ∨
      (∃ loc ∈ unclassifiedIn inside c, locs = [loc]) ∨
      inside = true ∧ ∃ loc, locs = [loc] ∧ (loc ∈ (c.topLines.flatMap headerOf).map (·.loc) ∨
        loc ∈ (c.topLines.flatMap useOf).map (·.loc)) := by
  induction c generalizing inside g with
  | nil => cases hlocs
  | line a rest ih =>
    simp only [Blocks.topLines, List.flatMap_cons, List.map_append, List.mem_append]
    rcases List.mem_cons.1 hlocs with rfl | hlocs
    · rcases line_classified hreads.1 h.1 with hun | ⟨hin, hheader | huse⟩
      · exact .inr (.inl ⟨a.loc, List.mem_append_left _ hun, rfl⟩)
      · exact .inr (.inr ⟨hin, a.loc, rfl, .inl (.inl hheader)⟩)
      · exact .inr (.inr ⟨hin, a.loc, rfl, .inr (.inl huse)⟩)
    · rcases ih hreads.2 h.2 hlocs g with hoffered | ⟨loc, hun, rfl⟩ | ⟨hin, loc, rfl, hof⟩
      · exact .inl hoffered
      · exact .inr (.inl ⟨loc, List.mem_append_right _ hun, rfl⟩)
      · exact .inr (.inr ⟨hin, loc, rfl, hof.imp .inr .inr⟩)
  | block a body close rest ihb ihr =>
    obtain ⟨-, hbody, hends⟩ := hreads
    obtain ⟨-, hreadable, -, hreadableRest⟩ := h
    have hrest : ReadsAs inside rest := by
      cases close with
      | some x => exact hends.2.2
      | none =>
        obtain rfl := hends
        trivial
    rw [modulesIn, createHintsForModules, createHintsForModule]
    have hown {locs : List SourceLoc} {mod : ModuleDecl}
        (hin : locs ∈ ownRanges (!inside) mod) : Offered pathId
          (createHintsForModules env pathId (!inside) (modulesIn rest)
            (createHintsForModules env pathId false (modulesIn body)
              (ownHints env pathId (!inside) mod g))) locs := by
      have hsubmodules := createHintsForModules_grows env pathId false body
        (ownHints env pathId (!inside) mod g)
      have hothers := createHintsForModules_grows env pathId (!inside) rest
        (createHintsForModules env pathId false (modulesIn body)
          (ownHints env pathId (!inside) mod g))
      exact ((ownHints_offers env g hin).grows hsubmodules).grows hothers
    rw [rangesIn] at hlocs
    rcases List.mem_append.1 hlocs with hlocs | hlocs
    · split at hlocs
      · rename_i hin
        refine .inl (hown ?_)
        rw [ownRanges, hin]
        exact List.mem_append_left _ hlocs
      · cases hlocs
    · rcases List.mem_append.1 hlocs with hlocs | hlocs
      · rcases ihb hbody hreadable hlocs _ with hoffered | ⟨loc, hun, rfl⟩ | ⟨-, loc, rfl, hof⟩
        · exact .inl (hoffered.grows (createHintsForModules_grows env pathId (!inside) rest _))
        · exact .inr (.inl ⟨loc, List.mem_append_left _ hun, rfl⟩)
        · refine .inl (hown (List.mem_append_right _ ?_))
          rcases hof with hheader | huse
          · obtain ⟨header, hin, rfl⟩ := List.mem_map.1 hheader
            exact List.mem_append_left _ (List.mem_map_of_mem hin)
          · obtain ⟨use, hin, rfl⟩ := List.mem_map.1 huse
            exact List.mem_append_right _ (List.mem_map_of_mem hin)
      · rcases ihr hrest hreadableRest hlocs _ with hoffered | ⟨loc, hun, rfl⟩ | hof
        · exact .inl hoffered
        · exact .inr (.inl ⟨loc, List.mem_append_right _ hun, rfl⟩)
        · exact .inr (.inr hof)

/-- What the pass makes of a file: it is read as blocks, its path is in the vocabulary, and each
range has its hint. -/
structure MapFile (tc : TestCase) (g : MakefilePass.Generated) (path : RelPath) (data : Bytes)
    (c : Blocks TextWithLoc) (pathId : Nat) : Prop where
  file : tc.readBytes path = .ok data
  blocks : ReadBlocks data c
  word : g.vocab[pathId]? = some (encode (strOfPath path))
  offered : ∀ locs ∈ rangesIn false c, Offered pathId g locs

theorem MapFile.grows (h : MapFile tc g path data c pathId) (hg : Grows new g g') :
    MapFile tc g' path data c pathId :=
  ⟨h.file, h.blocks, getElem?_of_prefix hg.vocab h.word,
    fun locs hlocs => (h.offered locs hlocs).grows hg⟩

theorem addFile_grows (hplaced : g.Placed) (h : addFile env tc g path = .ok g') :
    ∃ data c pathId, MapFile tc g' path data c pathId ∧
      Grows (IsFor pathId (rangesIn false c)) g g' := by
  obtain ⟨data, hdata, h⟩ := except_bind_ok.1 h
  obtain ⟨file, hparse, h⟩ := except_bind_ok.1 h
  obtain rfl := Except.ok.inj h
  obtain ⟨c, hblocks, rfl⟩ := exists_readBlocks hparse
  have hid := getVocabId_grows (IsFor (MakefilePass.getVocabId path g).1 (rangesIn false c)) path g
  have hword := getVocabId_word path hplaced
  have hmodules := createHintsForModules_grows env (MakefilePass.getVocabId path g).1 true c
    (MakefilePass.getVocabId path g).2
  have hlines := grows_hints (createHintsForModules env (MakefilePass.getVocabId path g).1 true
    (modulesIn c) (MakefilePass.getVocabId path g).2)
    ((unclassifiedIn false c).map fun loc =>
      deletionHint 5 (MakefilePass.getVocabId path g).1 [loc])
  have hlines' : Grows (IsFor (MakefilePass.getVocabId path g).1 (rangesIn false c)) _ _ :=
    hlines.mono fun x hx => by
      obtain ⟨loc, hloc, rfl⟩ := List.mem_map.1 hx
      exact ⟨[loc], mem_rangesIn_unclassified hloc, rfl⟩
  refine ⟨data, c, _, ⟨hdata, hblocks, getElem?_of_prefix (hmodules.trans hlines').vocab hword,
    fun locs hlocs => ?_⟩, hid.trans (hmodules.trans hlines')⟩
  rcases createHintsForModules_offers env (MakefilePass.getVocabId path g).1 hblocks.reads
    hblocks.readable hlocs (MakefilePass.getVocabId path g).2 with h | ⟨loc, hloc, rfl⟩ | ⟨hin, -⟩
  · exact h.grows hlines
  · exact ⟨_, List.mem_append_right _ (List.mem_map_of_mem hloc), rfl⟩
  · cases hin

structure MapHints (tc : TestCase) (paths : List RelPath) (g : MakefilePass.Generated) : Prop where
  placed : g.Placed
  files : ∀ path ∈ paths, ∃ data c pathId, MapFile tc g path data c pathId
  sound : ∀ h ∈ g.hints, ∃ path ∈ paths, ∃ data c pathId, MapFile tc g path data c pathId ∧
    IsFor pathId (rangesIn false c) h

theorem foldlM_addFile {paths done : List RelPath} (hg : MapHints tc done g)
    (h : paths.foldlM (addFile env tc) g = .ok g') : MapHints tc (done ++ paths) g' := by
  induction paths generalizing g done with
  | nil =>
    obtain rfl := Except.ok.inj h
    rwa [List.append_nil]
  | cons path paths ih =>
    rw [List.foldlM_cons] at h
    obtain ⟨g₁, hadd, hrest⟩ := except_bind_ok.1 h
    obtain ⟨data, c, pathId, hfile, hgrows⟩ := addFile_grows hg.placed hadd
    rw [← List.singleton_append, ← List.append_assoc]
    refine ih ⟨hgrows.placed hg.placed, fun path' hpath' => ?_, fun x hx => ?_⟩ hrest
    · rcases List.mem_append.1 hpath' with hpath' | hpath'
      · obtain ⟨data', c', pathId', hfile'⟩ := hg.files path' hpath'
        exact ⟨data', c', pathId', hfile'.grows hgrows⟩
      · obtain rfl := List.mem_singleton.1 hpath'
        exact ⟨data, c, pathId, hfile⟩
    · rcases hgrows.added x hx with hold | hnew
      · obtain ⟨path', hpath', data', c', pathId', hfile', hfor⟩ := hg.sound x hold
        exact ⟨path', List.mem_append_left _ hpath', data', c', pathId', hfile'.grows hgrows, hfor⟩
      · exact ⟨path, List.mem_append_right _ (List.mem_singleton_self path), data, c, pathId, hfile,
          hnew⟩

theorem mapHints_nil (tc : TestCase) (vocab : List Bytes) : MapHints tc [] { vocab := vocab } where
  placed := List.forall_mem_nil _
  files := List.forall_mem_nil _
  sound := List.forall_mem_nil _

variable {b : HintBundle} {hs : List Hint} {keep : TextWithLoc → Bool}

theorem ReadBlocks.inOrder (h : ReadBlocks data c) : InOrder c.lines :=
  h.lines ▸ inOrder_locateLines 0 fun l hl => ((areLines_byteLines data).single l hl).1

theorem ReadBlocks.range_within (h : ReadBlocks data c) (hlocs : locs ∈ rangesIn false c)
    (hloc : loc ∈ locs) : loc.beginPos ≤ loc.endPos ∧ loc.endPos ≤ data.length := by
  obtain ⟨l, -, l', hl', hbegin, hend, hlt⟩ := rangesIn_lines h.inOrder hlocs hloc
  rw [h.lines] at hl'
  have hlast := (locateLines_begin hl').2.2
  rw [flatten_byteLines] at hlast
  omega

theorem mapHints_fit (hnamed : tc.Named) (hg : MapHints tc paths g)
    (hpaths : ∀ path ∈ paths, ∃ data, tc.HasFile path data) (hvocab : b.vocabulary = g.vocab)
    (hsub : ∀ h ∈ hs, h ∈ g.hints) :
    HintBundle.Fits { b with hints := hs } tc ∧ HintBundle.Deletes { b with hints := hs } := by
  constructor
  · intro h hh p hp
    obtain ⟨path, hpath, data, c, pathId, hfile, locs, hlocs, hpatches⟩ := hg.sound h (hsub h hh)
    rw [hpatches] at hp
    obtain ⟨loc, hloc, rfl⟩ := List.mem_map.1 hp
    obtain ⟨data', hdata⟩ := hpaths path hpath
    obtain rfl := Except.ok.inj ((readBytes_hasFile hdata).symm.trans hfile.file)
    obtain ⟨hle, hlen⟩ := hfile.blocks.range_within hlocs hloc
    refine ⟨path, data', pathOf_word hnamed hdata (hvocab ▸ hfile.word), hdata, rfl, rfl, hle, hlen,
      rfl, ?_⟩
    intro v hv
    cases hv
  · intro h hh p hp
    obtain ⟨_, _, _, _, _, _, _, _, hpatches⟩ := hg.sound h (hsub h hh)
    rw [hpatches] at hp
    obtain ⟨_, _, rfl⟩ := List.mem_map.1 hp
    rfl

/-- The ranges of the hints in a file, those of each hint together. -/
def chosenRanges (b : HintBundle) (path : RelPath) : List (List SourceLoc) :=
  b.hints.map fun h => (h.patches.filter fun p => b.pathOf p = .ok path).map fun p =>
    ⟨p.left.getD 0, p.right.getD 0⟩

theorem takes_iff_chosen (b : HintBundle) (path : RelPath) (i : Nat) : b.Takes path i ↔
    ∃ locs ∈ chosenRanges b path, ∃ loc ∈ locs, loc.beginPos ≤ i ∧ i < loc.endPos := by
  constructor
  · rintro ⟨h, hh, p, hp, hpath, hi⟩
    exact ⟨_, List.mem_map_of_mem hh, _, List.mem_map_of_mem (List.mem_filter.2
      ⟨hp, decide_eq_true hpath⟩), hi⟩
  · rintro ⟨locs, hlocs, loc, hloc, hi⟩
    obtain ⟨h, hh, rfl⟩ := List.mem_map.1 hlocs
    obtain ⟨p, hp, rfl⟩ := List.mem_map.1 hloc
    obtain ⟨hp, hpath⟩ := List.mem_filter.1 hp
    exact ⟨h, hh, p, hp, of_decide_eq_true hpath, hi⟩

theorem ReadBlocks.unique (h : ReadBlocks data c) (h' : ReadBlocks data c') : c = c' :=
  h.reads.unique h'.reads (h.lines.trans h'.lines.symm)

theorem mem_chosenRanges (hnamed : tc.Named) (hg : MapHints tc paths g)
    (hpaths : ∀ path ∈ paths, ∃ data, tc.HasFile path data) (hvocab : b.vocabulary = g.vocab)
    (hsub : ∀ h ∈ hs, h ∈ g.hints) (hfile : MapFile tc g path data c pathId)
    (hlocs : locs ∈ chosenRanges { b with hints := hs } path) :
    locs ∈ rangesIn false c ∨ locs = [] := by
  obtain ⟨h, hh, rfl⟩ := List.mem_map.1 hlocs
  obtain ⟨path', hpath', data', c', pathId', hfile', locs, hin, hpatches⟩ :=
    hg.sound h (hsub h hh)
  obtain ⟨data₁, hdata⟩ := hpaths path' hpath'
  have hword := pathOf_word (b := b) hnamed hdata (hvocab ▸ hfile'.word)
  have hpathOf (loc : SourceLoc) : HintBundle.pathOf { b with hints := hs }
      { path := some pathId', left := some loc.beginPos, right := some loc.endPos } = .ok path' :=
    hword
  by_cases hsame : path' = path
  · subst hsame
    obtain rfl := Except.ok.inj (hfile.file.symm.trans hfile'.file)
    obtain rfl := hfile.blocks.unique hfile'.blocks
    refine .inl ?_
    rw [List.filter_eq_self.2 fun p hp => ?_, hpatches, locsToPatches, List.map_map]
    · exact (List.map_id locs).symm ▸ hin
    · rw [hpatches] at hp
      obtain ⟨loc, -, rfl⟩ := List.mem_map.1 hp
      exact decide_eq_true (hpathOf loc)
  · refine .inr (List.map_eq_nil_iff.2 (List.filter_eq_nil_iff.2 fun p hp hpath => hsame ?_))
    rw [hpatches] at hp
    obtain ⟨loc, -, rfl⟩ := List.mem_map.1 hp
    exact Except.ok.inj ((hpathOf loc).symm.trans (of_decide_eq_true hpath))

theorem InOrder.apart {ls : List TextWithLoc} (h : InOrder ls) (hl : l ∈ ls) (hl' : l' ∈ ls) :
    l = l' ∨ l.loc.endPos ≤ l'.loc.beginPos ∨ l'.loc.endPos ≤ l.loc.beginPos := by
  obtain ⟨horder, -⟩ := h
  induction horder with
  | nil => cases hl
  | cons hbefore _ ih =>
    rcases List.mem_cons.1 hl with rfl | hin
    · rcases List.mem_cons.1 hl' with rfl | hin'
      · exact .inl rfl
      · exact .inr (.inl (hbefore _ hin'))
    · rcases List.mem_cons.1 hl' with rfl | hin'
      · exact .inr (.inr (hbefore _ hin))
      · exact ih hin hin'

theorem range_line (horder : InOrder c.lines) (hlocs : locs ∈ rangesIn inside c) (hloc : loc ∈ locs)
    (hl : l ∈ c.lines) (hle : l.loc.beginPos ≤ i) (hlt : i < l.loc.endPos) :
    loc.beginPos ≤ i ∧ i < loc.endPos ↔
      loc.beginPos ≤ l.loc.beginPos ∧ l.loc.beginPos < loc.endPos := by
  obtain ⟨l₁, hl₁, l₂, hl₂, hbegin, hend, -⟩ := rangesIn_lines horder hlocs hloc
  have hne₁ := horder.nonempty l₁ hl₁
  have hne₂ := horder.nonempty l₂ hl₂
  have hbegin' : loc.beginPos ≤ i ↔ loc.beginPos ≤ l.loc.beginPos := by
    rcases horder.apart hl hl₁ with rfl | h | h
    · omega
    · omega
    · omega
  have hend' : i < loc.endPos ↔ l.loc.beginPos < loc.endPos := by
    rcases horder.apart hl hl₂ with rfl | h | h
    · omega
    · omega
    · omega
  exact and_congr hbegin' hend'

theorem keptAt_locateLines {keep : Nat → Bool} {pos : Nat} {lines : List Bytes}
    (h : ∀ l ∈ locateLines pos lines, ∀ i, l.loc.beginPos ≤ i → i < l.loc.endPos →
      keep i = keep l.loc.beginPos) : keptAt (fun i => keep (pos + i)) lines.flatten =
        (((locateLines pos lines).filter fun l => keep l.loc.beginPos).map (·.value)).flatten := by
  induction lines generalizing pos with
  | nil => rfl
  | cons line lines ih =>
    have hline (i : Nat) (hi : i < line.length) : keep (pos + i) = keep pos :=
      h _ List.mem_cons_self (pos + i) (Nat.le_add_right _ _) (Nat.add_lt_add_left hi pos)
    have hrest := ih fun l hl => h l (List.mem_cons_of_mem _ hl)
    rw [List.flatten_cons, keptAt_append, locateLines, List.filter_cons]
    simp only [← Nat.add_assoc, hrest]
    cases hkeep : keep pos with
    | true =>
      rw [keptAt_of_forall fun i hi => (hline i hi).trans hkeep, if_pos rfl, List.map_cons,
        List.flatten_cons]
    | false =>
      rw [keptAt_of_none fun i hi => (hline i hi).trans hkeep, if_neg Bool.false_ne_true,
        List.nil_append]

theorem ReadBlocks.byteLines_keptAt (h : ReadBlocks data c) (keep : Nat → Bool)
    (hkeep : ∀ l ∈ c.lines, ∀ i, l.loc.beginPos ≤ i → i < l.loc.endPos →
      keep i = keep l.loc.beginPos) :
    byteLines (keptAt keep data) =
      (c.lines.filter fun l => keep l.loc.beginPos).map (·.value) := by
  rw [h.lines] at hkeep ⊢
  have hkept := keptAt_locateLines hkeep
  rw [flatten_byteLines] at hkept
  simp only [Nat.zero_add] at hkept
  rw [hkept, byteLines_eq]
  refine ((areLines_byteLines data).sublist ?_).splitLines_flatten
  have hsub := (List.filter_sublist (p := fun l => keep l.loc.beginPos)
    (l := locateLines 0 (byteLines data))).map (·.value)
  rwa [locateLines_values] at hsub

/-- What has become of a module map. There is a hint for each line of its own and for what goes with
a submodule. The file has the lines that no hint that was applied takes, where the line that opens a
submodule goes with the one that closes it, and it is read as the blocks with these lines. -/
structure BlocksPruned (b : HintBundle) (hs : List Hint) (path : RelPath) (data out : Bytes)
    (c : Blocks TextWithLoc) (keep : TextWithLoc → Bool) : Prop where
  read : ReadBlocks data c
  offered : ∃ pathId, b.pathOf { path := some pathId } = .ok path ∧
    ∀ locs ∈ rangesIn false c, ∃ h ∈ b.hints, h.patches = locsToPatches locs pathId
  kept : ∀ l, keep l = true ↔ ¬ HintBundle.Takes { b with hints := hs } path l.loc.beginPos
  balanced : c.Balanced keep false
  remains : byteLines out = (c.lines.filter keep).map (·.value)
  reread : ∃ c', ReadBlocks out c' ∧ c'.map (·.value) = (c.prune keep).map (·.value)

/-- Whichever of the hints are applied: only the module maps change, and each one is read as before,
without the lines that the hints take. What was in a submodule whose lines went stays in its
place. -/
theorem module_maps_pruned {claimFiles claimedByOthersFiles : List Str} (hnamed : tc.Named)
    (hgen : generateHints env lib tc claimFiles claimedByOthersFiles = .ok b)
    (hsub : ∀ h ∈ hs, h ∈ b.hints) :
    ∃ dest report, applyHints [{ b with hints := hs }] tc = .ok (some (some dest, report)) ∧
      (∀ path data, tc.HasFile path data →
        path ∉ filterFilesByPatterns lib tc claimFiles claimedByOthersFiles →
          dest.HasFile path data) ∧
      ∀ path ∈ filterFilesByPatterns lib tc claimFiles claimedByOthersFiles,
        ∃ data out c keep, tc.HasFile path data ∧ dest.HasFile path out ∧
          BlocksPruned b hs path data out c keep := by
  obtain ⟨g, hfold, hb⟩ := except_bind_ok.1 hgen
  obtain rfl := Except.ok.inj hb
  have hg := foldlM_addFile (mapHints_nil tc initialVocab) hfold
  rw [List.nil_append] at hg
  have hpaths : ∀ path ∈ filterFilesByPatterns lib tc claimFiles claimedByOthersFiles,
      ∃ data, tc.HasFile path data := fun path hpath => hasFile_of_mem hpath
  generalize filterFilesByPatterns lib tc claimFiles claimedByOthersFiles = paths at *
  obtain ⟨hfits, hdel⟩ := mapHints_fit (b := { hints := g.hints, vocabulary := g.vocab }) hnamed hg
    hpaths rfl hsub
  obtain ⟨dest, report, happly, hfiles⟩ := deletions_applied hfits hdel
  refine ⟨dest, report, happly, fun path data hfile hpath => ?_, fun path hpath => ?_⟩
  · refine (hfiles path data).2 ⟨data, hfile, (keptAt_of_forall fun i _ => ?_).symm⟩
    refine decide_eq_true ?_
    rintro ⟨h, hh, p, hp, hpath', -⟩
    obtain ⟨path', hmem, _, _, _, hmap, locs, _, hpatches⟩ := hg.sound h (hsub h hh)
    rw [hpatches] at hp
    obtain ⟨_, _, rfl⟩ := List.mem_map.1 hp
    obtain ⟨_, hfile'⟩ := hpaths path' hmem
    have hword := pathOf_word (b := { hints := g.hints, vocabulary := g.vocab }) hnamed hfile'
      hmap.word
    obtain rfl := Except.ok.inj (hword.symm.trans hpath')
    exact hpath hmem
  · obtain ⟨data, c, pathId, hmap⟩ := hg.files path hpath
    obtain ⟨data', hfile⟩ := hpaths path hpath
    obtain rfl := Except.ok.inj ((readBytes_hasFile hfile).symm.trans hmap.file)
    have hchosen (locs : List SourceLoc) (hlocs : locs ∈ chosenRanges
        { hints := hs, vocabulary := g.vocab } path) : locs ∈ rangesIn false c ∨ locs = [] :=
      mem_chosenRanges (b := { hints := g.hints, vocabulary := g.vocab }) hnamed hg hpaths rfl hsub
        hmap hlocs
    have htakes := takes_iff_chosen { hints := hs, vocabulary := g.vocab } path
    have horder := hmap.blocks.inOrder
    have hlines := hmap.blocks.byteLines_keptAt (fun i => decide
        ¬ HintBundle.Takes { hints := hs, vocabulary := g.vocab } path i) fun l hl i hle hlt => by
      rw [decide_eq_decide, not_iff_not, htakes, htakes]
      refine exists_congr fun locs => and_congr_right fun hlocs => exists_congr fun loc =>
        and_congr_right fun hloc => ?_
      rcases hchosen locs hlocs with h | rfl
      · exact range_line horder h hloc hl hle hlt
      · cases hloc
    have hkeep (l : TextWithLoc) : decide (¬ HintBundle.Takes
          { hints := hs, vocabulary := g.vocab } path l.loc.beginPos) = true ↔
        ∀ locs ∈ chosenRanges { hints := hs, vocabulary := g.vocab } path, ¬ Covers locs l := by
      rw [decide_eq_true_iff, htakes]
      exact ⟨fun h locs hlocs hcovers => h ⟨locs, hlocs, hcovers⟩,
        fun h hin => hin.elim fun locs hin => h locs hin.1 hin.2⟩
    have hbalanced := balanced_of_chosen horder hkeep fun locs hlocs => by
      refine (hchosen locs hlocs).imp_right fun hnil l _ hcovers => ?_
      obtain ⟨loc, hloc, -⟩ := hcovers
      rw [hnil] at hloc
      cases hloc
    obtain ⟨c', hread, hvalues⟩ := hmap.blocks.pruned hbalanced hlines
    exact ⟨data', _, c, _, hfile, (hfiles path _).2 ⟨data', hfile, rfl⟩, hmap.blocks,
      ⟨pathId, pathOf_word hnamed hfile hmap.word, hmap.offered⟩, fun l => decide_eq_true_iff,
      hbalanced, hlines, c', hread, hvalues⟩

/-- A module with a submodule that has a header. -/
def moduleMap : Bytes :=
  encode "module a\x7b\nmodule b\x7b\nheader \"c\"\n\x7d\n\x7d\n".toList

theorem byteLines_moduleMap : byteLines moduleMap = ["module a\x7b\n", "module b\x7b\n",
    "header \"c\"\n", "\x7d\n", "\x7d\n"].map fun s => encode s.toList := by
  decide

theorem parseFile_moduleMap : ∃ file, parseFile moduleMap = .ok file := by
  rw [parseFile, byteLines_moduleMap]
  exact ⟨_, rfl⟩

theorem generateHints_moduleMap : ∃ b, generateHints exampleEnv exampleLib (.file moduleMap)
    ["module.modulemap".toList] [] = .ok b := by
  obtain ⟨file, hfile⟩ := parseFile_moduleMap
  have hadd : ∃ g, addFile exampleEnv (.file moduleMap) { vocab := initialVocab } [] = .ok g :=
    ⟨_, except_bind_ok.2 ⟨moduleMap, rfl, except_bind_ok.2 ⟨file, hfile, rfl⟩⟩⟩
  obtain ⟨g, hg⟩ := hadd
  refine ⟨_, except_bind_ok.2 ⟨g, ?_, rfl⟩⟩
  show ([[]] : List RelPath).foldlM _ _ = _
  rw [List.foldlM_cons, hg]
  rfl

theorem module_maps_pruned_inlined : ∃ b dest report,
    generateHints exampleEnv exampleLib (.file moduleMap) ["module.modulemap".toList] [] = .ok b ∧
      applyHints [{ b with hints := b.hints.filter (·.type = some 4) }] (.file moduleMap) =
        .ok (some (some dest, report)) ∧
      ∃ out c keep, dest.HasFile [] out ∧
        BlocksPruned b (b.hints.filter (·.type = some 4)) [] moduleMap out c keep := by
  obtain ⟨b, hb⟩ := generateHints_moduleMap
  have hnamed : TestCase.Named (.file moduleMap) := trivial
  obtain ⟨dest, report, happly, -, hall⟩ :=
    module_maps_pruned hnamed hb fun h hh => (List.mem_filter.1 hh).1
  obtain ⟨data, out, c, keep, hdata, hout, hpruned⟩ := hall [] List.mem_cons_self
  obtain rfl : moduleMap = data := hdata.2
  exact ⟨b, dest, report, hb, happly, out, c, keep, hout, hpruned⟩

end ClangModuleMapPass

end Cvise
