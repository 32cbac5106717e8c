import Cvise.MakefilePass

namespace Cvise
set_option autoImplicit true

section dict

variable {κ ν : Type} [DecidableEq κ]

theorem mem_setKey {d : Dict κ ν} {v : ν} (h : e ∈ setKey d k v) : e ∈ d ∨ e = (k, v) := by
  rw [setKey] at h
  split at h
  · obtain ⟨e', he', rfl⟩ := List.mem_map.1 h
    split
    · exact .inr rfl
    · exact .inl he'
  · exact (List.mem_append.1 h).imp_right List.mem_singleton.1

theorem mem_of_getKey {d : Dict κ ν} {v : ν} (h : getKey d k = some v) : (k, v) ∈ d := by
  obtain ⟨e, hfind, rfl⟩ := Option.map_eq_some_iff.1 h
  have hkey : e.1 = k := by simpa using List.find?_some hfind
  exact hkey ▸ List.mem_of_find?_eq_some hfind

theorem keys_setKey (d : Dict κ ν) (k : κ) (v : ν) (h : (d.map Prod.fst).Nodup) :
    ((setKey d k v).map Prod.fst).Nodup := by
  rw [setKey]
  split
  · have hkeys : (d.map fun e => if e.1 = k then (k, v) else e).map Prod.fst = d.map Prod.fst := by
      rw [List.map_map]
      refine List.map_congr_left fun e _ => ?_
      rw [Function.comp_apply]
      split
      · rename_i he
        exact he.symm
      · rfl
    rwa [hkeys]
  · rename_i hany
    rw [List.map_append, List.map_singleton, List.nodup_append]
    refine ⟨h, List.nodup_singleton k, fun a ha b hb heq => hany ?_⟩
    obtain ⟨e, he, rfl⟩ := List.mem_map.1 ha
    obtain rfl := List.mem_singleton.1 hb
    exact List.any_eq_true.2 ⟨e, he, decide_eq_true heq⟩

theorem getKey_of_mem {d : Dict κ ν} (h : (d.map Prod.fst).Nodup) (he : e ∈ d) :
    getKey d e.1 = some e.2 := by
  obtain ⟨e', hfind⟩ := Option.isSome_iff_exists.1 (List.find?_isSome
    (p := fun e' : κ × ν => decide (e'.1 = e.1)) |>.2 ⟨e, he, decide_eq_true rfl⟩)
  have hkey : e'.1 = e.1 := by simpa using List.find?_some hfind
  have hsame := List.inj_on_of_nodup_map h (List.mem_of_find?_eq_some hfind) he hkey
  rw [getKey, hfind, hsame, Option.map_some]

theorem getKey_foldl_extendKey (d : Dict κ (List ν)) (es : List (κ × List ν)) (k : κ) :
    (getKey (es.foldl extendKey d) k).getD [] =
      (getKey d k).getD [] ++ (es.filter fun e => e.1 = k).flatMap Prod.snd := by
  induction es generalizing d with
  | nil => exact (List.append_nil _).symm
  | cons e es ih =>
    rw [List.foldl_cons, ih, extendKey]
    by_cases hk : e.1 = k
    · rw [List.filter_cons_of_pos (by simpa using hk), List.flatMap_cons, hk, getKey_setKey_self,
        Option.getD_some, List.append_assoc]
    · rw [List.filter_cons_of_neg (by simpa using hk), getKey_setKey_ne (Ne.symm hk)]

theorem keys_foldl_extendKey {d : Dict κ (List ν)} (h : (d.map Prod.fst).Nodup)
    (es : List (κ × List ν)) : ((es.foldl extendKey d).map Prod.fst).Nodup := by
  induction es generalizing d with
  | nil => exact h
  | cons e es ih => exact ih (keys_setKey d _ _ h)

theorem exists_foldl_extendKey (d : Dict κ (List ν)) {es : List (κ × List ν)} (he : e ∈ es)
    (hne : e.2 ≠ []) : ∃ e' ∈ es.foldl extendKey d, e'.1 = e.1 := by
  have hall := getKey_foldl_extendKey d es e.1
  cases hget : getKey (es.foldl extendKey d) e.1 with
  | some v => exact ⟨_, mem_of_getKey hget, rfl⟩
  | none =>
    rw [hget] at hall
    have hnil := (List.append_eq_nil_iff.1 hall.symm).2
    have hmem : e ∈ es.filter fun e' => e'.1 = e.1 :=
      List.mem_filter.2 ⟨he, decide_eq_true rfl⟩
    exact absurd (List.flatMap_eq_nil_iff.1 hnil e hmem) hne

end dict

namespace MakefilePass

open MakefileParser

variable {env : Env} {tc : TestCase}

/-- The positions of a token with the blanks before it. -/
theorem mem_tokenLocs {tok : TextWithLoc} (h : tok.Spaced) (i : Nat) :
    (∃ loc ∈ tokenLocs tok, loc.beginPos ≤ i ∧ i < loc.endPos) ↔
      tok.rangeBegin ≤ i ∧ i < tok.loc.endPos := by
  obtain ⟨hle, hspaces⟩ := h
  rw [tokenLocs, TextWithLoc.rangeBegin]
  cases hs : tok.precedingSpacesLoc with
  | none => simp
  | some s =>
    have hs := hspaces s hs
    simp only [Option.toList_some, List.singleton_append, List.mem_cons, List.not_mem_nil, or_false,
      exists_eq_or_imp, exists_eq_left, Option.map_some, Option.getD_some]
    omega

theorem tokenLocs_within {tok : TextWithLoc} (h : tok.Spaced) (hloc : loc ∈ tokenLocs tok) :
    loc.beginPos ≤ loc.endPos ∧ loc.endPos ≤ tok.loc.endPos := by
  obtain ⟨hle, hspaces⟩ := h
  rcases List.mem_append.1 hloc with hloc | hloc
  · obtain ⟨hsle, hend⟩ := hspaces loc (Option.mem_toList.1 hloc)
    exact ⟨hsle, hend ▸ hle⟩
  · obtain rfl := List.mem_singleton.1 hloc
    exact ⟨hle, Nat.le_refl _⟩

theorem mem_removableArgGroups {opt : Option TextWithLoc} {args : List TextWithLoc}
    (h : group ∈ removableArgGroups opt args) :
    group ≠ [] ∧ ∀ a ∈ group, a ∈ opt.toList ++ args := by
  induction args generalizing opt with
  | nil => cases h
  | cons arg args ih =>
    have hrest {opt' : Option TextWithLoc} (hopt : ∀ a ∈ opt'.toList, a ∈ opt.toList ++ arg :: args)
        (h : group ∈ removableArgGroups opt' args) :
        group ≠ [] ∧ ∀ a ∈ group, a ∈ opt.toList ++ arg :: args := by
      obtain ⟨hne, hmem⟩ := ih h
      refine ⟨hne, fun a ha => (List.mem_append.1 (hmem a ha)).elim (hopt a) fun ha => ?_⟩
      exact List.mem_append_right _ (List.mem_cons_of_mem _ ha)
    have harg : arg ∈ opt.toList ++ arg :: args := List.mem_append_right _ List.mem_cons_self
    cases opt with
    | some o =>
      rw [removableArgGroups] at h
      split at h
      · rcases List.mem_cons.1 h with rfl | h
        · exact ⟨List.cons_ne_nil _ _, List.forall_mem_cons.2
            ⟨List.mem_cons_self, List.forall_mem_singleton.2 harg⟩⟩
        · exact hrest (List.forall_mem_nil _) h
      · exact hrest (List.forall_mem_nil _) h
    | none =>
      rw [removableArgGroups] at h
      split at h
      · refine hrest (fun a ha => ?_) h
        obtain rfl := List.mem_singleton.1 ha
        exact harg
      · split at h
        · exact hrest (List.forall_mem_nil _) h
        · rcases List.mem_cons.1 h with rfl | h
          · exact ⟨List.cons_ne_nil _ _, List.forall_mem_singleton.2 harg⟩
          · exact hrest (List.forall_mem_nil _) h

def Env.Removable (env : Env) (r : RecipeLine) (group : List TextWithLoc) : Prop :=
  ∃ groups, lineArgGroups env r = .ok groups ∧ group ∈ groups

theorem Env.Removable.mem {r : RecipeLine} (h : env.Removable r group) :
    group ≠ [] ∧ ∀ a ∈ group, a ∈ r.args := by
  obtain ⟨groups, hgroups, hmem⟩ := h
  rw [lineArgGroups] at hgroups
  obtain ⟨prog, -, hgroups⟩ := except_bind_ok.1 hgroups
  split at hgroups
  · obtain rfl := Except.ok.inj hgroups
    cases hmem
  · obtain rfl := Except.ok.inj hgroups
    exact mem_removableArgGroups hmem

theorem mem_argLocs {mk : Makefile} (h : argLocs env mk = .ok locs) (key : Bytes) :
    loc ∈ (getKey locs key).getD [] ↔ ∃ r ∈ mk.recipes, ∃ group, env.Removable r group ∧
      groupKey group = key ∧ ∃ tok ∈ group, loc ∈ tokenLocs tok := by
  obtain ⟨groups, hgroups, hlocs⟩ := except_bind_ok.1 h
  obtain rfl := Except.ok.inj hlocs
  rw [getKey_foldl_extendKey]
  constructor
  · intro hmem
    obtain ⟨e, he, hloc⟩ := List.mem_flatMap.1 hmem
    obtain ⟨he, hkey⟩ := List.mem_filter.1 he
    obtain ⟨group, hgroup, rfl⟩ := List.mem_map.1 he
    obtain ⟨gs, hgs, hin⟩ := List.mem_flatten.1 hgroup
    obtain ⟨r, hr, hline⟩ := (except_mapM_mem hgroups).1 hgs
    obtain ⟨tok, htok, hloc⟩ := List.mem_flatMap.1 hloc
    exact ⟨r, hr, group, ⟨gs, hline, hin⟩, of_decide_eq_true hkey, tok, htok, hloc⟩
  · rintro ⟨r, hr, group, ⟨gs, hline, hin⟩, rfl, tok, htok, hloc⟩
    refine List.mem_flatMap.2 ⟨(groupKey group, group.flatMap tokenLocs), List.mem_filter.2
      ⟨List.mem_map_of_mem ?_, decide_eq_true rfl⟩, List.mem_flatMap.2 ⟨tok, htok, hloc⟩⟩
    exact List.mem_flatten.2 ⟨gs, (except_mapM_mem hgroups).2 ⟨r, hr, hline⟩, hin⟩

theorem argLocs_keys {mk : Makefile} (h : argLocs env mk = .ok locs) :
    (locs.map Prod.fst).Nodup := by
  obtain ⟨groups, hgroups, hlocs⟩ := except_bind_ok.1 h
  obtain rfl := Except.ok.inj hlocs
  exact keys_foldl_extendKey (d := []) List.nodup_nil _

theorem exists_argLocs {mk : Makefile} (h : argLocs env mk = .ok locs) (hr : r ∈ mk.recipes)
    (hgroup : env.Removable r group) : ∃ e ∈ locs, e.1 = groupKey group := by
  obtain ⟨groups, hgroups, hlocs⟩ := except_bind_ok.1 h
  obtain rfl := Except.ok.inj hlocs
  obtain ⟨hne, -⟩ := hgroup.mem
  obtain ⟨gs, hline, hin⟩ := hgroup
  refine exists_foldl_extendKey [] (e := (groupKey group, group.flatMap tokenLocs))
    (List.mem_map_of_mem (List.mem_flatten.2
      ⟨gs, (except_mapM_mem hgroups).2 ⟨r, hr, hline⟩, hin⟩)) ?_
  obtain ⟨tok, toks, rfl⟩ := List.exists_cons_of_ne_nil hne
  rw [List.flatMap_cons, tokenLocs]
  exact List.append_ne_nil_of_left_ne_nil
    (List.append_ne_nil_of_right_ne_nil _ (List.cons_ne_nil _ _)) _

/-- The words of the vocabulary say which paths they are. -/
def Generated.Placed (g : Generated) : Prop :=
  ∀ e ∈ g.pathToVocab, g.vocab[e.2]? = some (encode (strOfPath e.1))

/-- How the pass goes on: the vocabulary grows, and hints come in. -/
structure Grows (new : Hint → Prop) (g g' : Generated) : Prop where
  vocab : g.vocab <+: g'.vocab
  placed : g.Placed → g'.Placed
  kept : ∀ h ∈ g.hints, h ∈ g'.hints
  added : ∀ h ∈ g'.hints, h ∈ g.hints ∨ new h

theorem Grows.refl (new : Hint → Prop) (g : Generated) : Grows new g g :=
  ⟨List.prefix_rfl, id, fun _ hh => hh, fun _ hh => .inl hh⟩

theorem Grows.trans (h : Grows new g g') (h' : Grows new g' g'') : Grows new g g'' where
  vocab := h.vocab.trans h'.vocab
  placed := h'.placed ∘ h.placed
  kept x hx := h'.kept x (h.kept x hx)
  added x hx := (h'.added x hx).elim (h.added x) .inr

theorem Grows.mono (h : Grows new g g') (hnew : ∀ x, new x → new' x) : Grows new' g g' where
  vocab := h.vocab
  placed := h.placed
  kept := h.kept
  added x hx := (h.added x hx).imp_right (hnew x)

theorem grows_foldlM {β : Type} {f : Generated → β → Except PyErr Generated} {xs : List β}
    (hf : ∀ g x g', f g x = .ok g' → Grows new g g') (h : xs.foldlM f g = .ok g') :
    Grows new g g' :=
  foldlM_invariant (fun _ x _ _ hg hstep => hg.trans (hf _ x _ hstep)) (Grows.refl new g) h

theorem getElem?_of_prefix {words words' : List Bytes} {i : Nat} (h : words <+: words')
    (hi : words[i]? = some w) : words'[i]? = some w := by
  obtain ⟨more, rfl⟩ := h
  rw [List.getElem?_append_left (List.getElem?_eq_some_iff.1 hi).1, hi]

theorem getVocabId_grows (new : Hint → Prop) (path : RelPath) (g : Generated) :
    Grows new g (getVocabId path g).2 := by
  rw [getVocabId]
  split
  · exact Grows.refl new g
  · refine ⟨List.prefix_append _ _, fun hplaced e he => ?_, fun _ hh => hh, fun _ hh => .inl hh⟩
    rcases mem_setKey he with he | rfl
    · exact getElem?_of_prefix (List.prefix_append _ _) (hplaced e he)
    · exact List.getElem?_concat_length

theorem getVocabId_word (path : RelPath) {g : Generated} (h : g.Placed) :
    (getVocabId path g).2.vocab[(getVocabId path g).1]? = some (encode (strOfPath path)) := by
  rw [getVocabId]
  split
  · rename_i id hget
    exact h _ (mem_of_getKey hget)
  · exact List.getElem?_concat_length

theorem grows_hints (g : Generated) (hs : List Hint) :
    Grows (· ∈ hs) g { g with hints := g.hints ++ hs } :=
  ⟨List.prefix_rfl, id, fun _ hh => List.mem_append_left _ hh, fun _ hh => List.mem_append.1 hh⟩

def IsOther (h : Hint) : Prop := h.type ≠ some removeArgumentsVocabId

theorem addFileref_grows (pathId : Nat) (tok : TextWithLoc) (path : RelPath) (g : Generated) :
    Grows IsOther g (addFileref pathId tok path g) := by
  refine (getVocabId_grows IsOther path g).trans ((grows_hints _ _).mono fun h hh => ?_)
  obtain rfl := List.mem_singleton.1 hh
  exact (by decide : some filerefVocabId ≠ some removeArgumentsVocabId)

theorem addFilerefHints_grows (h : addFilerefHints env mk pathId g = .ok g') :
    Grows IsOther g g' := by
  refine grows_foldlM (fun g line g' hline => ?_) h
  obtain ⟨prog, -, hargs⟩ := except_bind_ok.1 hline
  refine Grows.trans ?_ (grows_foldlM (fun g arg g' harg => ?_) hargs)
  · split
    · exact addFileref_grows _ _ _ _
    · exact Grows.refl _ _
  · obtain ⟨file, -, hfile⟩ := except_bind_ok.1 harg
    cases file with
    | some path =>
      obtain rfl := Except.ok.inj hfile
      exact addFileref_grows _ _ _ _
    | none =>
      obtain rfl := Except.ok.inj hfile
      exact Grows.refl _ _

theorem addTargetRemovalHints_grows (h : addTargetRemovalHints mk pathId g = .ok g') :
    Grows IsOther g g' := by
  obtain ⟨mentions, -, hhints⟩ := except_bind_ok.1 h
  obtain rfl := Except.ok.inj hhints
  refine (grows_hints _ _).mono fun h hh => ?_
  obtain ⟨e, -, rfl⟩ := List.mem_map.1 hh
  exact (by decide : some removeTargetVocabId ≠ some removeArgumentsVocabId)

theorem addFileLevelHints_grows (pathId : Nat) (g : Generated) :
    Grows IsOther g (addFileLevelHints pathId g) := by
  refine (grows_hints _ _).mono fun h hh => ?_
  rcases List.mem_cons.1 hh with rfl | hh
  · exact (by decide : some makefileVocabId ≠ some removeArgumentsVocabId)
  · obtain rfl := List.mem_singleton.1 hh
    exact (by decide : some filerefVocabId ≠ some removeArgumentsVocabId)

/-- What the pass makes of a file: it is parsed, and each group of arguments has its hint. -/
structure Covers (env : Env) (tc : TestCase) (g : Generated) (path : RelPath) (data : Bytes)
    (mk : Makefile) (locs : Dict Bytes (List SourceLoc)) (pathId : Nat) : Prop where
  file : tc.readBytes path = .ok data
  parsed : parse data = .ok mk
  argLocs : argLocs env mk = .ok locs
  word : g.vocab[pathId]? = some (encode (strOfPath path))
  hints : ∀ e ∈ locs, argRemovalHint pathId e.2 ∈ g.hints

theorem Covers.grows {m : Makefile} (h : Covers env tc g path data m locs pathId)
    (hg : Grows new g g') : Covers env tc g' path data m locs pathId :=
  ⟨h.file, h.parsed, h.argLocs, getElem?_of_prefix hg.vocab h.word,
    fun e he => hg.kept _ (h.hints e he)⟩

theorem addMakefile_eq (env : Env) (tc : TestCase) (g : Generated) (path : RelPath) :
    addMakefile env tc g path = (do
      let mk ← parse (← tc.readBytes path)
      let g' ← addFilerefHints env mk (getVocabId path g).1
        (addFileLevelHints (getVocabId path g).1 (getVocabId path g).2)
      let g' ← addArgRemovalHints env mk (getVocabId path g).1 g'
      addTargetRemovalHints mk (getVocabId path g).1 g') := rfl

theorem addMakefile_covers (hplaced : g.Placed) (h : addMakefile env tc g path = .ok g') :
    ∃ data mk locs pathId, Covers env tc g' path data mk locs pathId ∧
      Grows (fun h => h.type = some removeArgumentsVocabId →
        ∃ e ∈ locs, h = argRemovalHint pathId e.2) g g' := by
  have hid := getVocabId_grows IsOther path g
  have hword := getVocabId_word path hplaced
  rw [addMakefile_eq] at h
  generalize (getVocabId path g).1 = pathId at *
  generalize (getVocabId path g).2 = g₀ at *
  obtain ⟨data, hdata, h⟩ := except_bind_ok.1 h
  obtain ⟨mk, hmk, h⟩ := except_bind_ok.1 h
  obtain ⟨g₁, hfilerefs, h⟩ := except_bind_ok.1 h
  obtain ⟨g₂, hargs, htargets⟩ := except_bind_ok.1 h
  obtain ⟨locs, hlocs, hargs⟩ := except_bind_ok.1 hargs
  obtain rfl := Except.ok.inj hargs
  have hbefore := (addFileLevelHints_grows pathId g₀).trans (addFilerefHints_grows hfilerefs)
  have hafter := addTargetRemovalHints_grows htargets
  have hmid := grows_hints g₁ (locs.map fun e => argRemovalHint pathId e.2)
  have hother {x : Hint} (hx : IsOther x) : x.type = some removeArgumentsVocabId →
      ∃ e ∈ locs, x = argRemovalHint pathId e.2 := fun htype => absurd htype hx
  refine ⟨data, mk, locs, pathId, ⟨hdata, hmk, hlocs, ?_, fun e he => ?_⟩, ?_⟩
  · exact getElem?_of_prefix (hbefore.vocab.trans (hmid.vocab.trans hafter.vocab)) hword
  · exact hafter.kept _ (List.mem_append_right _ (List.mem_map_of_mem he))
  · refine ((hid.trans hbefore).mono fun _ => hother).trans ((hmid.mono ?_).trans
      (hafter.mono fun _ => hother))
    intro x hx _
    obtain ⟨e, he, rfl⟩ := List.mem_map.1 hx
    exact ⟨e, he, rfl⟩

structure ArgHints (env : Env) (tc : TestCase) (paths : List RelPath) (g : Generated) : Prop where
  placed : g.Placed
  covers : ∀ path ∈ paths, ∃ data mk locs pathId, Covers env tc g path data mk locs pathId
  sound : ∀ h ∈ g.hints, h.type = some removeArgumentsVocabId → ∃ path ∈ paths,
    ∃ data mk locs pathId, Covers env tc g path data mk locs pathId ∧
      ∃ e ∈ locs, h = argRemovalHint pathId e.2

theorem foldlM_addMakefile {paths done : List RelPath} (hg : ArgHints env tc done g)
    (h : paths.foldlM (addMakefile env tc) g = .ok g') : ArgHints env tc (done ++ paths) g' := by
  induction paths generalizing g done with
  | nil =>
    obtain rfl := Except.ok.inj h
    rwa [List.append_nil]
  | cons path paths ih =>
    rw [List.foldlM_cons] at h
    obtain ⟨g₁, hadd, hrest⟩ := except_bind_ok.1 h
    obtain ⟨data, mk, locs, pathId, hcovers, hgrows⟩ := addMakefile_covers hg.placed hadd
    rw [← List.singleton_append, ← List.append_assoc]
    refine ih ⟨hgrows.placed hg.placed, fun path' hpath' => ?_, fun x hx htype => ?_⟩ hrest
    · rcases List.mem_append.1 hpath' with hpath' | hpath'
      · obtain ⟨data', mk', locs', pathId', hcovers'⟩ := hg.covers path' hpath'
        exact ⟨data', mk', locs', pathId', hcovers'.grows hgrows⟩
      · obtain rfl := List.mem_singleton.1 hpath'
        exact ⟨data, mk, locs, pathId, hcovers⟩
    · rcases hgrows.added x hx with hold | hnew
      · obtain ⟨path', hpath', data', mk', locs', pathId', hcovers', he⟩ := hg.sound x hold htype
        exact ⟨path', List.mem_append_left _ hpath', data', mk', locs', pathId',
          hcovers'.grows hgrows, he⟩
      · exact ⟨path, List.mem_append_right _ (List.mem_singleton_self path), data, mk, locs, pathId,
          hcovers, hnew htype⟩

theorem argHints_nil (env : Env) (tc : TestCase) : ArgHints env tc [] {} where
  placed := List.forall_mem_nil _
  covers := List.forall_mem_nil _
  sound := List.forall_mem_nil _

/-- Applying the hint removes the groups of arguments of the makefile that have the key. -/
def Env.Removes (env : Env) (b : HintBundle) (path : RelPath) (mk : Makefile) (key : Bytes)
    (h : Hint) : Prop :=
  ∃ locs pathId, argLocs env mk = .ok locs ∧ b.pathOf { path := some pathId } = .ok path ∧
    h = argRemovalHint pathId ((getKey locs key).getD [])

/-- What has become of a makefile: the commands have lost the arguments of the groups whose hints
were applied, and nothing else has changed for a reader. -/
structure ArgumentsRemoved (env : Env) (b : HintBundle) (hs : List Hint) (path : RelPath)
    (data out : Bytes) (mk : Makefile) (sel : RecipeLine → TextWithLoc → Bool) : Prop where
  parsed : parse data = .ok mk
  offered : ∀ r ∈ mk.recipes, ∀ group, env.Removable r group →
    ∃ h ∈ b.hints, env.Removes b path mk (groupKey group) h
  selected : ∀ r ∈ mk.recipes, ∀ arg, sel r arg = true ↔ ∃ group, env.Removable r group ∧
    arg ∈ group ∧ ∃ h ∈ hs, env.Removes b path mk (groupKey group) h
  reparsed : (parse out).map (Makefile.words (·.args)) = .ok (mk.words (unselected sel))

variable {b : HintBundle} {path : RelPath} {data : Bytes} {m : Makefile}

theorem pathOf_word (hnamed : tc.Named) (hfile : tc.HasFile path data)
    (hword : b.vocabulary[i]? = some (encode (strOfPath path))) :
    b.pathOf { path := some i } = .ok path := by
  refine except_bind_ok.2 ⟨encode (strOfPath path), ?_, ?_⟩
  · rw [HintBundle.word, hword]
  · cases hdir : tc.isDir with
    | true => exact pathOfBytes_word hnamed hfile hdir
    | false =>
      cases tc with
      | file d =>
        obtain rfl := hfile.1
        rfl
      | dir t => cases hdir

theorem Covers.loc_within (h : Covers env tc g path data m locs pathId) (he : e ∈ locs)
    (hloc : loc ∈ e.2) : loc.beginPos ≤ loc.endPos ∧ loc.endPos ≤ data.length := by
  have hget := getKey_of_mem (argLocs_keys h.argLocs) he
  have hmem : loc ∈ (getKey locs e.1).getD [] := by rwa [hget]
  obtain ⟨r, hr, group, hgroup, -, tok, htok, hin⟩ := (mem_argLocs h.argLocs e.1).1 hmem
  obtain ⟨line, hline, hwithin⟩ := parse_recipes h.parsed r hr
  have harg := List.mem_cons_of_mem r.program (hgroup.mem.2 tok htok)
  have htokLocs := tokenLocs_within (hwithin.spaced tok harg) hin
  have hplace := hwithin.within tok harg
  have hfile := endPos_le_length hline
  omega

theorem argHints_fit {hs : List Hint} (hnamed : tc.Named) (hg : ArgHints env tc paths g)
    (hpaths : ∀ path ∈ paths, ∃ data, tc.HasFile path data) (hvocab : b.vocabulary = g.vocab)
    (hsub : ∀ h ∈ hs, h ∈ g.hints ∧ h.type = some removeArgumentsVocabId) :
    HintBundle.Fits { b with hints := hs } tc ∧ HintBundle.Deletes { b with hints := hs } := by
  constructor
  · intro h hh p hp
    obtain ⟨path, hpath, data, mk, locs, pathId, hcovers, e, he, rfl⟩ :=
      hg.sound h (hsub h hh).1 (hsub h hh).2
    obtain ⟨loc, hloc, rfl⟩ := List.mem_map.1 hp
    obtain ⟨data', hfile⟩ := hpaths path hpath
    obtain rfl := Except.ok.inj ((readBytes_hasFile hfile).symm.trans hcovers.file)
    obtain ⟨hle, hlen⟩ := hcovers.loc_within he hloc
    refine ⟨path, data', pathOf_word hnamed hfile (hvocab ▸ hcovers.word), hfile, rfl, rfl, hle,
      hlen, rfl, ?_⟩
    intro v hv
    cases hv
  · intro h hh p hp
    obtain ⟨_, _, _, _, _, _, _, _, _, rfl⟩ := hg.sound h (hsub h hh).1 (hsub h hh).2
    obtain ⟨_, _, rfl⟩ := List.mem_map.1 hp
    rfl

/-- What the applied hints take of a makefile are the arguments of their groups. -/
theorem takes_iff_isCut {hs : List Hint} (hnamed : tc.Named) (hg : ArgHints env tc paths g)
    (hpaths : ∀ path ∈ paths, ∃ data, tc.HasFile path data) (hvocab : b.vocabulary = g.vocab)
    (hsub : ∀ h ∈ hs, h ∈ g.hints ∧ h.type = some removeArgumentsVocabId)
    (hcovers : Covers env tc g path data m locs pathId)
    (hsel : ∀ r arg, sel r arg = true ↔ ∃ group, env.Removable r group ∧
      arg ∈ group ∧ ∃ h ∈ hs, env.Removes b path m (groupKey group) h) (i : Nat) :
    HintBundle.Takes { b with hints := hs } path i ↔ m.IsCut sel i := by
  constructor
  · rintro ⟨h, hh, p, hp, hpath, hi⟩
    obtain ⟨path', hmem, data', mk', locs', pathId', hcovers', e, he, rfl⟩ :=
      hg.sound h (hsub h hh).1 (hsub h hh).2
    obtain ⟨loc, hloc, rfl⟩ := List.mem_map.1 hp
    obtain ⟨data₁, hfile⟩ := hpaths path' hmem
    have hword := pathOf_word (b := b) hnamed hfile (hvocab ▸ hcovers'.word)
    obtain rfl := Except.ok.inj (hword.symm.trans hpath)
    obtain rfl := Except.ok.inj (hcovers.file.symm.trans hcovers'.file)
    obtain rfl := Except.ok.inj (hcovers.parsed.symm.trans hcovers'.parsed)
    obtain rfl := Except.ok.inj (hcovers.argLocs.symm.trans hcovers'.argLocs)
    have hget := getKey_of_mem (argLocs_keys hcovers.argLocs) he
    have hin : loc ∈ (getKey locs e.1).getD [] := by rwa [hget]
    obtain ⟨r, hr, group, hgroup, hkey, tok, htok, htokLoc⟩ :=
      (mem_argLocs hcovers.argLocs e.1).1 hin
    obtain ⟨line, -, hwithin⟩ := parse_recipes hcovers.parsed r hr
    have harg := hgroup.mem.2 tok htok
    refine ⟨r, hr, tok, harg, (hsel r tok).2 ⟨group, hgroup, htok, _, hh, locs, pathId',
      hcovers.argLocs, hword, ?_⟩, ?_⟩
    · rw [hkey, hget, Option.getD_some]
    · exact (mem_tokenLocs (hwithin.spaced tok (List.mem_cons_of_mem _ harg)) i).1
        ⟨loc, htokLoc, hi⟩
  · rintro ⟨r, hr, arg, harg, hselected, hi⟩
    obtain ⟨group, hgroup, hmem, h, hh, locs', pathId', hlocs', hpath, rfl⟩ :=
      (hsel r arg).1 hselected
    obtain ⟨line, -, hwithin⟩ := parse_recipes hcovers.parsed r hr
    obtain ⟨loc, hloc, hin⟩ :=
      (mem_tokenLocs (hwithin.spaced arg (List.mem_cons_of_mem _ harg)) i).2 hi
    have hget := (mem_argLocs hlocs' (groupKey group)).2
      ⟨r, hr, group, hgroup, rfl, arg, hmem, hloc⟩
    exact ⟨_, hh, _, List.mem_map_of_mem hget, hpath, hin⟩

/-- Whichever of the hints for arguments are applied: only the makefiles change, and each one is
read as before, without the arguments of the groups whose hints were applied. -/
theorem arguments_removed {claimFiles claimedByOthersFiles : List Str} (hnamed : tc.Named)
    (hgen : generateHints env lib tc claimFiles claimedByOthersFiles = .ok b)
    (hsub : ∀ h ∈ hs, h ∈ b.hints ∧ h.type = some removeArgumentsVocabId)
    (hsolid : ∀ path ∈ filterFilesByPatterns lib tc claimFiles claimedByOthersFiles, ∀ data mk,
      tc.HasFile path data → parse data = .ok mk → mk.SolidWords data) :
    ∃ dest report, applyHints [{ b with hints := hs }] tc = .ok (some (some dest, report)) ∧
      (∀ path data, tc.HasFile path data →
        path ∉ filterFilesByPatterns lib tc claimFiles claimedByOthersFiles →
          dest.HasFile path data) ∧
      ∀ path ∈ filterFilesByPatterns lib tc claimFiles claimedByOthersFiles,
        ∃ data out mk sel, tc.HasFile path data ∧ dest.HasFile path out ∧
          ArgumentsRemoved env b hs path data out mk sel := by
  obtain ⟨g, hfold, hb⟩ := except_bind_ok.1 hgen
  obtain rfl := Except.ok.inj hb
  have hg := foldlM_addMakefile (argHints_nil env tc) hfold
  rw [List.nil_append] at hg
  have hpaths : ∀ path ∈ filterFilesByPatterns lib tc claimFiles claimedByOthersFiles,
      ∃ data, tc.HasFile path data := fun path hpath => hasFile_of_mem hpath
  generalize filterFilesByPatterns lib tc claimFiles claimedByOthersFiles = paths at *
  obtain ⟨hfits, hdel⟩ := argHints_fit (b := { hints := g.hints, vocabulary := g.vocab }) hnamed hg
    hpaths rfl hsub
  obtain ⟨dest, report, happly, hfiles⟩ := deletions_applied hfits hdel
  refine ⟨dest, report, happly, fun path data hfile hpath => ?_, fun path hpath => ?_⟩
  · refine (hfiles path data).2 ⟨data, hfile, (keptAt_of_forall fun i _ => ?_).symm⟩
    refine decide_eq_true ?_
    rintro ⟨h, hh, p, hp, hpath', -⟩
    obtain ⟨path', hmem, _, _, _, _, hcovers, _, _, rfl⟩ := hg.sound h (hsub h hh).1 (hsub h hh).2
    obtain ⟨_, _, rfl⟩ := List.mem_map.1 hp
    obtain ⟨_, hfile'⟩ := hpaths path' hmem
    have hword := pathOf_word (b := { hints := g.hints, vocabulary := g.vocab }) hnamed hfile'
      hcovers.word
    obtain rfl := Except.ok.inj (hword.symm.trans hpath')
    exact hpath hmem
  · classical
    obtain ⟨data, mk, locs, pathId, hcovers⟩ := hg.covers path hpath
    obtain ⟨data', hfile⟩ := hpaths path hpath
    obtain rfl := Except.ok.inj ((readBytes_hasFile hfile).symm.trans hcovers.file)
    obtain ⟨sel, hsel⟩ : ∃ sel : RecipeLine → TextWithLoc → Bool, ∀ r arg, sel r arg = true ↔
        ∃ group, env.Removable r group ∧ arg ∈ group ∧ ∃ h ∈ hs,
          env.Removes { hints := g.hints, vocabulary := g.vocab } path mk (groupKey group) h :=
      ⟨fun r arg => decide _, fun r arg => decide_eq_true_iff⟩
    have htakes := takes_iff_isCut hnamed hg hpaths rfl hsub hcovers hsel
    refine ⟨data', _, mk, sel, hfile, (hfiles path _).2 ⟨data', hfile, rfl⟩, hcovers.parsed, ?_,
      fun r _ arg => hsel r arg, ?_⟩
    · intro r hr group hgroup
      obtain ⟨e, he, hkey⟩ := exists_argLocs hcovers.argLocs hr hgroup
      refine ⟨_, hcovers.hints e he, locs, pathId, hcovers.argLocs,
        pathOf_word hnamed hfile hcovers.word, ?_⟩
      rw [← hkey, getKey_of_mem (argLocs_keys hcovers.argLocs) he, Option.getD_some]
    · have hkeep : (fun i => decide
          ¬ HintBundle.Takes { hints := hs, vocabulary := g.vocab } path i) =
            fun i => !decide (mk.IsCut sel i) := by
        funext i
        rw [← decide_not, decide_eq_decide, htakes i]
      rw [hkeep]
      exact parse_cut hcovers.parsed (hsolid path hpath data' mk hfile hcovers.parsed) _

theorem parseRecipeLine_tokens {l : TextWithLoc} (h : l.Sound) (htab : l.value.head? = some 9)
    (htoks : shellTokens (l.loc.beginPos + recipeBegin l.value)
      (l.value.drop (recipeBegin l.value)) = program :: args) :
    parseRecipeLine l = .ok (some {
      loc := ⟨l.loc.beginPos + recipeBegin l.value, l.loc.endPos⟩
      program := program
      args := args }) := by
  rw [parseRecipeLine_eq h, if_neg (not_not.2 htab), htoks]

/-- A rule with the command `gcc -g a`. -/
def makefile : Bytes := [97, 58, 10, 9, 103, 99, 99, 32, 45, 103, 32, 97, 10]

def makefileRule : Rule where
  loc := ⟨0, 13⟩
  targets := [⟨⟨0, 1⟩, [['a']], none⟩]
  prereqs := []
  recipe := [{
    loc := ⟨4, 13⟩
    program := ⟨⟨4, 7⟩, [103, 99, 99], none⟩
    args := [⟨⟨8, 10⟩, [45, 103], some ⟨7, 8⟩⟩, ⟨⟨11, 12⟩, [97], some ⟨10, 11⟩⟩] }]

theorem parse_makefile : parse makefile = .ok { rules := [makefileRule] } := by
  have htoks : shellTokens 4 [103, 99, 99, 32, 45, 103, 32, 97, 10] =
      makefileRule.recipe.flatMap fun r => r.program :: r.args := by
    have hprogram : scanToken none [103, 99, 99, 32, 45, 103, 32, 97, 10] = ([103, 99, 99], 3) := by
      simp [scanToken_cons, isShellSpace]
      decide
    have hoption : scanToken none [45, 103, 32, 97, 10] = ([45, 103], 2) := by
      simp [scanToken_cons, isShellSpace]
      decide
    have hfile : scanToken none [97, 10] = ([97], 1) := by
      simp [scanToken_cons, isShellSpace]
      decide
    rw [shellTokens_cons rfl, hprogram]
    show _ :: shellTokens 7 [32, 45, 103, 32, 97, 10] = _
    rw [shellTokens_cons rfl, hoption]
    show _ :: _ :: shellTokens 10 [32, 97, 10] = _
    rw [shellTokens_cons rfl, hfile]
    show _ :: _ :: _ :: shellTokens 12 [10] = _
    rw [shellTokens_nil rfl]
    rfl
  have htarget : splitBytes [97] = [[97]] := by simp [splitBytes, isSpaceByte]
  have hnone : splitBytes [10] = [] := by simp [splitBytes, isSpaceByte]
  have hlines : logicalLines makefile =
      [[97, 58, 10], [9, 103, 99, 99, 32, 45, 103, 32, 97, 10]] := by decide
  have hhead : parseRuleLine ⟨⟨0, 3⟩, [97, 58, 10], none⟩ =
      .ok (some { makefileRule with loc := ⟨0, 3⟩, recipe := [] }) := by
    show (do
      let targets ← toPaths (← splitBySpaces ⟨⟨0, 1⟩, [97], none⟩)
      let prereqs ← toPaths (← splitBySpaces ⟨⟨2, 3⟩, [10], none⟩)
      return some { loc := ⟨0, 3⟩, targets := targets, prereqs := prereqs } :
        Except PyErr (Option Rule)) = _
    rw [splitBySpaces, splitBySpaces, htarget, hnone]
    rfl
  have hrecipe : parseRecipeLine ⟨⟨3, 13⟩, [9, 103, 99, 99, 32, 45, 103, 32, 97, 10], none⟩ =
      .ok makefileRule.recipe.head? := by
    have hsound : TextWithLoc.Sound
        ⟨⟨3, 13⟩, [9, 103, 99, 99, 32, 45, 103, 32, 97, 10], none⟩ := rfl
    exact parseRecipeLine_tokens hsound rfl htoks
  rw [parse, hlines]
  show (parseLine {} ⟨⟨0, 3⟩, [97, 58, 10], none⟩ >>= fun mk =>
    (locateLines 3 _).foldlM parseLine mk) >>= _ = _
  rw [parseLine_other (.inl rfl), hhead]
  show (parseLine _ ⟨⟨3, 13⟩, [9, 103, 99, 99, 32, 45, 103, 32, 97, 10], none⟩ >>= _) >>= _ = _
  rw [parseLine_recipe (List.cons_ne_nil _ _) hrecipe]
  rfl

def exampleEnv : Env where
  testCase := [['/'], ['t']]
  pathExists _ := false
  isAlnum := Char.isAlphanum

def exampleLib : GlobLibrary where
  isSymlink := false
  fnmatch _ := true
  glob _ := []
  inode _ := (0, 0)

theorem generateHints_makefile : ∃ b, generateHints exampleEnv exampleLib (.file makefile)
    ["Makefile".toList] [] = .ok b := by
  have hadd : ∃ g, addMakefile exampleEnv (.file makefile) {} [] = .ok g := by
    rw [addMakefile_eq]
    show ∃ g, (parse makefile >>= _) = Except.ok g
    rw [parse_makefile]
    exact ⟨_, rfl⟩
  obtain ⟨g, hg⟩ := hadd
  refine ⟨_, except_bind_ok.2 ⟨g, ?_, rfl⟩⟩
  show ([[]] : List RelPath).foldlM _ _ = _
  rw [List.foldlM_cons, hg]
  rfl

theorem solidWords_makefile (h : parse makefile = .ok mk) : mk.SolidWords makefile := by
  obtain rfl := Except.ok.inj (parse_makefile.symm.trans h)
  have hends : (makefileRule.recipe.flatMap fun r => r.program :: r.args).map
      (fun t => makefile[t.loc.endPos - 1]?) = [some 99, some 103, some 97] := rfl
  intro r hr t ht b hb
  have hr : r ∈ makefileRule.recipe := by
    rwa [Makefile.recipes, List.flatMap_singleton] at hr
  have hmem : some b ∈ [some 99, some 103, some 97] := by
    rw [← hends, ← Option.mem_def.1 hb]
    exact List.mem_map_of_mem (List.mem_flatMap.2 ⟨r, hr, ht⟩)
  have hsolid : ∀ b : UInt8, b = 99 ∨ b = 103 ∨ b = 97 → IsSolid b := by
    rintro b (rfl | rfl | rfl)
    · exact ⟨by decide, rfl⟩
    · exact ⟨by decide, rfl⟩
    · exact ⟨by decide, rfl⟩
  simp only [List.mem_cons, Option.some.injEq, List.not_mem_nil, or_false] at hmem
  exact hsolid b hmem

theorem arguments_removed_option : ∃ b dest report,
    generateHints exampleEnv exampleLib (.file makefile) ["Makefile".toList] [] = .ok b ∧
      applyHints [{ b with hints := b.hints.filter (·.type = some removeArgumentsVocabId) }]
        (.file makefile) = .ok (some (some dest, report)) ∧
      ∃ out mk sel, dest.HasFile [] out ∧ ArgumentsRemoved exampleEnv b
        (b.hints.filter (·.type = some removeArgumentsVocabId)) [] makefile out mk sel := by
  obtain ⟨b, hb⟩ := generateHints_makefile
  have hfile {path : RelPath} {data : Bytes} (h : TestCase.HasFile (.file makefile) path data) :
      data = makefile := h.2.symm
  have hnamed : TestCase.Named (.file makefile) := trivial
  obtain ⟨dest, report, happly, -, hall⟩ := arguments_removed hnamed hb
    (fun h hh => (List.mem_filter.1 hh).imp_right of_decide_eq_true)
    fun path _ data mk hdata hparse => by
      obtain rfl := hfile hdata
      exact solidWords_makefile hparse
  obtain ⟨data, out, mk, sel, hdata, hout, hremoved⟩ := hall [] List.mem_cons_self
  obtain rfl := hfile hdata
  exact ⟨b, dest, report, hb, happly, out, mk, sel, hout, hremoved⟩

end MakefilePass

end Cvise
