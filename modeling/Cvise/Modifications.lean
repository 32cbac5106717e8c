import Cvise.ApplyHints
import Cvise.Backtracking
import Cvise.SerialRuns

namespace Cvise
set_option autoImplicit true

open Regexp

/-- What a pass looks for in a text, and what it puts in the place of a match. -/
structure ModificationConfig where
  search : Regexp Char
  replaceFn : Str → Match → Str

structure Modification where
  start : Nat
  stop : Nat
  replacement : Str
deriving DecidableEq

structure ModificationState where
  modifications : List Modification
  index : Nat
deriving DecidableEq

namespace ModificationConfig

/-- The modifications that `new` lists, the last one in the text first. -/
def modifications (config : ModificationConfig) (prog : Str) : List Modification :=
  ((finditer prog config.search).map fun m =>
    ⟨m.start, m.stop, config.replaceFn prog m⟩).reverse

/-- `new`, and so `advance_on_success`. -/
def new (config : ModificationConfig) (prog : Str) : Option ModificationState :=
  if config.modifications prog = [] then none else some ⟨config.modifications prog, 0⟩

end ModificationConfig

namespace ModificationState

def advance (state : ModificationState) : Option ModificationState :=
  if state.modifications.length ≤ state.index + 1 then none
  else some { state with index := state.index + 1 }

def transform (state : ModificationState) (data : Str) : Except PyErr Str :=
  match state.modifications[state.index]? with
  | some m => .ok (data.take m.start ++ m.replacement ++ data.drop m.stop)
  | none => .error .indexError

end ModificationState

namespace ModificationConfig

/-- The pass on its own. -/
def serial (config : ModificationConfig) : SerialPass ModificationState Str where
  transform state data :=
    match state.transform data with
    | .ok newData => (.ok, newData)
    | .error _ => (.error, data)
  advance state _ := state.advance
  advanceOnSuccess _ data := config.new data

variable {config : ModificationConfig}

/-- A state of the run on a text. -/
structure StateOf (config : ModificationConfig) (prog : Str) (s : ModificationState) : Prop where
  modifications : s.modifications = config.modifications prog
  index : s.index < s.modifications.length

theorem new_stateOf (h : config.new prog = some s) : config.StateOf prog s := by
  rw [new] at h
  split at h
  · cases h
  · rename_i hne
    obtain rfl := Option.some.inj h
    exact ⟨rfl, List.length_pos_of_ne_nil hne⟩

theorem advance_stateOf (h : config.StateOf prog s) (ha : s.advance = some s') :
    config.StateOf prog s' ∧ s'.index = s.index + 1 := by
  rw [ModificationState.advance] at ha
  split at ha
  · cases ha
  · rename_i hlt
    obtain rfl := Option.some.inj ha
    exact ⟨⟨h.modifications, Nat.lt_of_not_le hlt⟩, rfl⟩

theorem transform_stateOf (h : config.StateOf prog s) : ∃ m ∈ finditer prog config.search,
    s.transform prog =
      .ok (prog.take m.start ++ config.replaceFn prog m ++ prog.drop m.stop) := by
  obtain ⟨x, hx⟩ : ∃ x, s.modifications[s.index]? = some x :=
    ⟨_, List.getElem?_eq_getElem h.index⟩
  have hmem := List.mem_of_getElem? hx
  rw [h.modifications, modifications, List.mem_reverse] at hmem
  obtain ⟨m, hm, rfl⟩ := List.mem_map.1 hmem
  refine ⟨m, hm, ?_⟩
  rw [ModificationState.transform, hx]

theorem split_at_match (prog : Str) (h : i ≤ j) :
    prog = prog.take i ++ slice prog i j ++ prog.drop j := by
  have hdrop : slice prog i j ++ prog.drop j = prog.drop i := by
    have htake := List.take_append_drop (j - i) (prog.drop i)
    rw [List.drop_drop, Nat.add_sub_cancel' h] at htake
    exact htake
  rw [List.append_assoc, hdrop, List.take_append_drop]

theorem step_stateOf {c c' : ModificationState × Str} (h : config.StateOf c.2 c.1)
    (hstep : config.serial.step success c = some c') : config.StateOf c'.2 c'.1 := by
  rcases SerialPass.step_cases hstep with ⟨-, hadvance, hsame⟩ | ⟨-, -, hnew⟩
  · rw [hsame]
    exact (advance_stateOf h hadvance).1
  · exact new_stateOf hnew

theorem run_stateOf {c c' : ModificationState × Str} (h : config.StateOf c.2 c.1)
    (hrun : config.serial.run outcomes c n = some c') : config.StateOf c'.2 c'.1 := by
  induction n generalizing outcomes c with
  | zero =>
    obtain rfl := Option.some.inj hrun
    exact h
  | succ n ih =>
    rw [SerialPass.run] at hrun
    obtain ⟨c₁, hstep, hrun⟩ := Option.bind_eq_some_iff.1 hrun
    exact ih (step_stateOf h hstep) hrun

/-- A run ends when each replacement weighs less than what it replaces. -/
theorem serial_ends (weight : Str → Nat)
    (hadd : ∀ x y, weight (x ++ y) = weight x + weight y)
    (hlt : ∀ prog, ∀ m ∈ finditer prog config.search,
      weight (config.replaceFn prog m) < weight (slice prog m.start m.stop))
    (h : config.new prog = some s) : config.serial.Ends (s, prog) := by
  have hstep : ∀ success (c c' : ModificationState × Str), config.StateOf c.2 c.1 →
      config.serial.step success c = some c' → config.StateOf c'.2 c'.1 ∧
        InvImage (Prod.Lex (· < · : Nat → Nat → Prop) (· < · : Nat → Nat → Prop))
          (fun c => (weight c.2, c.1.modifications.length - c.1.index)) c' c := by
    rintro success ⟨s, text⟩ ⟨s', text'⟩ hs hstep
    refine ⟨step_stateOf hs hstep, ?_⟩
    rcases SerialPass.step_cases hstep with ⟨-, hadvance, hsame⟩ | ⟨hok, -, hnew⟩
    · obtain rfl : text' = text := hsame
      obtain ⟨hs', hindex⟩ := advance_stateOf hs hadvance
      refine Prod.lex_iff.2 (.inr ⟨rfl, ?_⟩)
      have hlen : s'.modifications.length = s.modifications.length :=
        congrArg List.length (hs'.modifications.trans hs.modifications.symm)
      have hbound := hs'.index
      simp only at hindex hbound ⊢
      omega
    · refine Prod.lex_iff.2 (.inl ?_)
      obtain ⟨m, hm, htransform⟩ := transform_stateOf hs
      have hle := spans_le (matchAt_some (matchAt_of_mem hm)).2
      have hweight := hlt text m hm
      have hout : text' = text.take m.start ++ config.replaceFn text m ++ text.drop m.stop := by
        have hok' : (match s.transform text with
          | .ok newData => (PassResult.ok, newData)
          | .error _ => (PassResult.error, text)) = (.ok, text') := hok
        rw [htransform] at hok'
        exact (congrArg Prod.snd hok').symm
      have hsplit := congrArg weight (split_at_match text hle)
      rw [hadd, hadd] at hsplit
      show weight text' < weight text
      rw [hout, hadd, hadd]
      omega
  have hwf := WellFounded.prod_lex Nat.lt_wfRel.wf Nat.lt_wfRel.wf
  exact SerialPass.ends_of_wellFounded (InvImage.wf _ hwf) hstep (new_stateOf h)

end ModificationConfig

end Cvise
