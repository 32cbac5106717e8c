import Cvise.ClexModes

namespace Cvise
set_option autoImplicit true

def hashSign : Bytes := "#".toUTF8.data.toList

def defineWord : Bytes := "define".toUTF8.data.toList

/-- A loop over the tokens from `i` on, as long as they satisfy a condition. It is `none` where a
token behind the last one is read, as is all that follows. -/
def skipWhile (keeps : Tok → Bool) (toks : List Tok) (i : Nat) : Option Nat :=
  ((toks.drop i).findIdx? fun t => !keeps t).map (i + ·)

def skipBlanks (toks : List Tok) (i : Nat) : Option Nat := skipWhile (·.kind = .ws) toks i

/-- `replace_macro`, for the token at `i`. -/
def replaceMacro (toks : List Tok) (i : Nat) : Option Bytes := do
  let name ← toks[i]?
  let start ← skipBlanks toks (i + 1)
  let stop ← skipWhile (·.kind ≠ .newline) toks start
  let body := ((toks.take stop).drop start).flatMap (·.str)
  some (toks.zipIdx.flatMap fun (t, x) => if x ≠ i ∧ t.str = name.str then body else t.str)

/-- Whether another token than the one at `i` has the text. -/
def isUsed (toks : List Tok) (i : Nat) (name : Bytes) : Bool :=
  toks.zipIdx.any fun (t, j) => decide (j ≠ i ∧ t.str = name)

/-- What a round of the loop in `define` comes to: the token that it goes on with, or the name of a
macro that is used. -/
inductive DefineRound where
  | next (i : Nat)
  | used (i : Nat)
deriving DecidableEq

def defineRound (toks : List Tok) (i : Nat) : Option DefineRound := do
  let t ← toks[i]?
  if t.str ≠ hashSign then some (.next (i + 1))
  else
    let i ← skipBlanks toks (i + 1)
    let t ← toks[i]?
    if t.str ≠ defineWord then some (.next (i + 1))
    else
      let i ← skipBlanks toks (i + 1)
      let t ← toks[i]?
      some (if isUsed toks i t.str then .used i else .next (i + 1))

theorem skipWhile_eq {keeps : Tok → Bool} {toks run after : List Tok}
    (h : toks.drop i = run ++ t :: after)
    (hrun : ∀ b ∈ run, keeps b = true) (ht : keeps t = false) :
    skipWhile keeps toks i = some (i + run.length) := by
  have hfound : (run ++ t :: after).findIdx? (fun t => !keeps t) = some run.length := by
    rw [List.findIdx?_append, List.findIdx?_eq_none_iff.2 fun b hb => by rw [hrun b hb]; rfl]
    rw [List.findIdx?_cons, ht]
    simp
  rw [skipWhile, h, hfound]
  rfl

theorem skipWhile_some {keeps : Tok → Bool} {toks : List Tok}
    (h : skipWhile keeps toks i = some j) :
    ∃ run t after, toks.drop i = run ++ t :: after ∧ (∀ b ∈ run, keeps b = true) ∧
      keeps t = false ∧ j = i + run.length := by
  obtain ⟨n, hn, rfl⟩ := Option.map_eq_some_iff.1 h
  obtain ⟨hlt, hstop, hbefore⟩ := List.findIdx?_eq_some_iff_getElem.1 hn
  refine ⟨(toks.drop i).take n, (toks.drop i)[n], (toks.drop i).drop (n + 1), ?_, ?_, ?_, ?_⟩
  · rw [← List.drop_eq_getElem_cons hlt, List.take_append_drop]
  · intro b hb
    obtain ⟨k, hk, rfl⟩ := List.mem_take_iff_getElem.1 hb
    have := hbefore k (lt_of_lt_of_le hk (Nat.min_le_left _ _))
    simpa using this
  · simpa using hstop
  · rw [List.length_take, Nat.min_eq_left hlt.le]

theorem getElem_of_drop {toks : List Tok} (h : toks.drop i = t :: after) : toks[i]? = some t := by
  rw [← Nat.add_zero i, ← List.getElem?_drop, h]
  rfl

theorem drop_behind {toks : List Tok} (h : toks.drop i = before ++ after) :
    toks.drop (i + before.length) = after := by
  rw [← List.drop_drop, h, List.drop_left]

theorem drop_next {toks : List Tok} (h : toks.drop i = t :: after) : toks.drop (i + 1) = after := by
  rw [← List.drop_drop, h]
  rfl

/-- A text that more than one token has. -/
def Used (toks : List Tok) (name : Bytes) : Prop := 1 < (toks.map (·.str)).count name

instance (toks : List Tok) (name : Bytes) : Decidable (Used toks name) :=
  inferInstanceAs (Decidable (1 < (toks.map (·.str)).count name))

/-- What a round reads: one token, or a `#` with the word behind it and, where that is `define`, the
name behind the word. -/
inductive Chunk where
  | single (t : Tok)
  | directive (t : Tok) (blanks : List Tok) (word : Tok)
  | definition (t : Tok) (blanks : List Tok) (word : Tok) (blanks' : List Tok) (name : Tok)

namespace Chunk

def toks : Chunk → List Tok
  | single t => [t]
  | directive t blanks word => t :: (blanks ++ [word])
  | definition t blanks word blanks' name => t :: (blanks ++ word :: (blanks' ++ [name]))

def Valid : Chunk → Prop
  | single t => t.str ≠ hashSign
  | directive t blanks word => t.str = hashSign ∧ (∀ b ∈ blanks, b.kind = .ws) ∧
      word.kind ≠ .ws ∧ word.str ≠ defineWord
  | definition t blanks word blanks' name => t.str = hashSign ∧ (∀ b ∈ blanks, b.kind = .ws) ∧
      word.kind ≠ .ws ∧ word.str = defineWord ∧ (∀ b ∈ blanks', b.kind = .ws) ∧ name.kind ≠ .ws

def name? : Chunk → Option Bytes
  | definition _ _ _ _ name => some name.str
  | _ => none

/-- It defines a macro that is used. -/
def Defines (all : List Tok) (c : Chunk) : Prop := ∃ name ∈ c.name?, Used all name

instance (all : List Tok) (c : Chunk) : Decidable (c.Defines all) :=
  inferInstanceAs (Decidable (∃ name ∈ c.name?, Used all name))

/-- What the round is that reads the tokens from `i` on. -/
def round (all : List Tok) (i : Nat) (c : Chunk) : DefineRound :=
  if c.Defines all then .used (i + (c.toks.length - 1)) else .next (i + c.toks.length)

theorem directive_append {blanks : List Tok} : (directive t blanks word).toks ++ after =
    t :: (blanks ++ word :: after) := by
  simp only [toks, List.append_assoc, List.cons_append, List.nil_append]

theorem definition_append {blanks blanks' : List Tok} :
    (definition t blanks word blanks' name).toks ++ after =
      t :: (blanks ++ word :: (blanks' ++ name :: after)) := by
  simp only [toks, List.append_assoc, List.cons_append, List.nil_append]

end Chunk

theorem blanks_stay {blanks : List Tok} (h : ∀ b ∈ blanks, b.kind = .ws) :
    ∀ b ∈ blanks, decide (b.kind = .ws) = true := fun b hb => decide_eq_true (h b hb)

/-- The place in the list says nothing of the tokens on one side of it. -/
theorem mem_zipIdx_apart {toks : List Tok} {off i : Nat} (hi : i < off ∨ off + toks.length ≤ i)
    (h : (t, j) ∈ toks.zipIdx off) : j ≠ i ∧ t ∈ toks := by
  obtain ⟨hle, hlt, hmem⟩ := List.mem_zipIdx h
  refine ⟨by omega, ?_⟩
  rw [hmem]
  exact List.getElem_mem _

theorem any_apart (name : Bytes) {toks : List Tok} {off i : Nat}
    (hi : i < off ∨ off + toks.length ≤ i) :
    ((toks.zipIdx off).any fun (t, j) => decide (j ≠ i ∧ t.str = name)) = true ↔
      name ∈ toks.map (·.str) := by
  rw [List.any_eq_true, List.mem_map]
  constructor
  · rintro ⟨⟨t, j⟩, hmem, ht⟩
    exact ⟨t, (mem_zipIdx_apart hi hmem).2, (of_decide_eq_true ht).2⟩
  · rintro ⟨t, ht, rfl⟩
    obtain ⟨k, hk, rfl⟩ := List.getElem_of_mem ht
    have hmem : (toks[k], off + k) ∈ toks.zipIdx off := by
      rw [List.mk_mem_zipIdx_iff_le_and_getElem?_sub, Nat.add_sub_cancel_left]
      exact ⟨Nat.le_add_right _ _, List.getElem?_eq_getElem hk⟩
    exact ⟨_, hmem, decide_eq_true ⟨(mem_zipIdx_apart hi hmem).1, rfl⟩⟩

theorem split_at_drop {toks : List Tok} (h : toks.drop i = t :: after) :
    ∃ before, toks = before ++ t :: after ∧ before.length = i := by
  have hlen : i < toks.length := by
    by_contra hle
    rw [List.drop_eq_nil_of_le (Nat.le_of_not_lt hle)] at h
    cases h
  refine ⟨toks.take i, ?_, ?_⟩
  · rw [← h, List.take_append_drop]
  · rw [List.length_take, Nat.min_eq_left hlen.le]

theorem isUsed_iff {toks : List Tok} (h : toks.drop i = t :: after) :
    isUsed toks i t.str = true ↔ Used toks t.str := by
  obtain ⟨before, rfl, rfl⟩ := split_at_drop h
  have hle : before.length < 0 ∨ 0 + before.length ≤ before.length := .inr (Nat.zero_add _).le
  have hlt : before.length < before.length + 1 ∨
      before.length + 1 + after.length ≤ before.length := .inl (Nat.lt_succ_self _)
  have hbefore := any_apart t.str hle
  have hafter := any_apart t.str hlt
  have hcount : Used (before ++ t :: after) t.str ↔
      t.str ∈ before.map (·.str) ∨ t.str ∈ after.map (·.str) := by
    rw [Used, List.map_append, List.map_cons, List.count_append, List.count_cons_self,
      ← List.count_pos_iff, ← List.count_pos_iff]
    omega
  rw [hcount, isUsed, List.zipIdx_append, List.zipIdx_cons, List.any_append, List.any_cons,
    Bool.or_eq_true, Bool.or_eq_true, hbefore, Nat.zero_add, hafter]
  simp

/-- What is behind the blanks at `i`: `j` is where the token `t` is, and `after` what follows it. -/
structure BlanksAt (toks : List Tok) (i j : Nat) (blanks : List Tok) (t : Tok) (after : List Tok) :
    Prop where
  read : toks.drop i = blanks ++ t :: after
  allBlank : ∀ b ∈ blanks, b.kind = .ws
  other : t.kind ≠ .ws
  place : j = i + blanks.length

namespace BlanksAt

theorem skip {toks blanks : List Tok} (h : BlanksAt toks i j blanks t after) :
    skipBlanks toks i = some j := by
  rw [h.place]
  exact skipWhile_eq h.read (blanks_stay h.allBlank) (decide_eq_false h.other)

theorem here {toks blanks : List Tok} (h : BlanksAt toks i j blanks t after) :
    toks.drop j = t :: after := by
  rw [h.place]
  exact drop_behind h.read

theorem get {toks blanks : List Tok} (h : BlanksAt toks i j blanks t after) : toks[j]? = some t :=
  getElem_of_drop h.here

theorem next {toks blanks : List Tok} (h : BlanksAt toks i j blanks t after) :
    toks.drop (j + 1) = after := drop_next h.here

end BlanksAt

theorem skipBlanks_some {toks : List Tok} (h : skipBlanks toks i = some j) :
    ∃ blanks t after, BlanksAt toks i j blanks t after := by
  obtain ⟨blanks, t, after, hdrop, hblanks, hstop, hj⟩ := skipWhile_some h
  exact ⟨blanks, t, after, hdrop, fun b hb => of_decide_eq_true (hblanks b hb),
    of_decide_eq_false hstop, hj⟩

theorem defineRound_single {toks : List Tok} (h : toks[i]? = some t) (ht : t.str ≠ hashSign) :
    defineRound toks i = some (.next (i + 1)) := by
  rw [defineRound, h]
  exact if_pos ht

theorem defineRound_directive {toks blanks : List Tok} (h : toks[i]? = some t)
    (ht : t.str = hashSign) (hword : BlanksAt toks (i + 1) j blanks word after)
    (hne : word.str ≠ defineWord) : defineRound toks i = some (.next (j + 1)) := by
  simp only [defineRound, h, Option.bind_eq_bind, Option.bind_some, ht, ne_eq, not_true_eq_false,
    if_false, hword.skip, hword.get, hne, not_false_eq_true, if_true]

theorem defineRound_definition {toks blanks blanks' : List Tok} (h : toks[i]? = some t)
    (ht : t.str = hashSign) (hword : BlanksAt toks (i + 1) j blanks word after)
    (heq : word.str = defineWord) (hname : BlanksAt toks (j + 1) k blanks' name after') :
    defineRound toks i = some (if Used toks name.str then .used k else .next (k + 1)) := by
  simp only [defineRound, h, Option.bind_eq_bind, Option.bind_some, ht, ne_eq, not_true_eq_false,
    if_false, hword.skip, hword.get, heq, hname.skip, hname.get, isUsed_iff hname.here]

theorem defineRound_chunk {toks after : List Tok} {c : Chunk} (h : toks.drop i = c.toks ++ after)
    (hc : c.Valid) : defineRound toks i = some (c.round toks i) := by
  cases c with
  | single t => exact defineRound_single (getElem_of_drop h) hc
  | directive t blanks word =>
    obtain ⟨hsharp, hblanks, hword, hne⟩ := hc
    have hat : BlanksAt toks (i + 1) (i + 1 + blanks.length) blanks word after :=
      ⟨drop_next (h.trans Chunk.directive_append), hblanks, hword, rfl⟩
    have hlen : i + (Chunk.directive t blanks word).toks.length = i + 1 + blanks.length + 1 := by
      simp only [Chunk.toks, List.length_cons, List.length_append, List.length_nil]
      omega
    have hname : ¬ (Chunk.directive t blanks word).Defines toks := by
      rintro ⟨name, hname, -⟩
      cases hname
    rw [defineRound_directive (getElem_of_drop h) hsharp hat hne, Chunk.round, if_neg hname, hlen]
  | definition t blanks word blanks' name =>
    obtain ⟨hsharp, hblanks, hword, heq, hblanks', hname⟩ := hc
    have hat : BlanksAt toks (i + 1) (i + 1 + blanks.length) blanks word
        (blanks' ++ name :: after) :=
      ⟨drop_next (h.trans Chunk.definition_append), hblanks, hword, rfl⟩
    have hat' : BlanksAt toks (i + 1 + blanks.length + 1)
        (i + 1 + blanks.length + 1 + blanks'.length) blanks' name after :=
      ⟨hat.next, hblanks', hname, rfl⟩
    rw [defineRound_definition (getElem_of_drop h) hsharp hat heq hat', Chunk.round]
    have hplace : i + ((Chunk.definition t blanks word blanks' name).toks.length - 1) =
        i + 1 + blanks.length + 1 + blanks'.length := by
      simp only [Chunk.toks, List.length_cons, List.length_append, List.length_nil]
      omega
    have hlen : i + (Chunk.definition t blanks word blanks' name).toks.length =
        i + 1 + blanks.length + 1 + blanks'.length + 1 := by
      simp only [Chunk.toks, List.length_cons, List.length_append, List.length_nil]
      omega
    rw [hplace, hlen]
    congr 1
    simp only [Chunk.Defines, Chunk.name?, Option.mem_def, Option.some.injEq, exists_eq_left']

theorem defineRound_some {toks : List Tok} (h : defineRound toks i = some r) :
    ∃ c after, Chunk.Valid c ∧ toks.drop i = c.toks ++ after := by
  cases ht : toks[i]? with
  | none =>
    rw [defineRound, ht] at h
    cases h
  | some t =>
    have hdrop : toks.drop i = t :: toks.drop (i + 1) := by
      obtain ⟨hlt, rfl⟩ := List.getElem?_eq_some_iff.1 ht
      exact List.drop_eq_getElem_cons hlt
    by_cases hsharp : t.str = hashSign
    · cases hj : skipBlanks toks (i + 1) with
      | none =>
        simp only [defineRound, ht, Option.bind_eq_bind, Option.bind_some, hsharp, ne_eq,
          not_true_eq_false, if_false, hj, Option.bind_none, reduceCtorEq] at h
      | some j =>
        obtain ⟨blanks, word, after, hword⟩ := skipBlanks_some hj
        by_cases heq : word.str = defineWord
        · cases hk : skipBlanks toks (j + 1) with
          | none =>
            simp only [defineRound, ht, Option.bind_eq_bind, Option.bind_some, hsharp, ne_eq,
              not_true_eq_false, if_false, hj, hword.get, heq, hk, Option.bind_none,
              reduceCtorEq] at h
          | some k =>
            obtain ⟨blanks', name, after', hname⟩ := skipBlanks_some hk
            refine ⟨.definition t blanks word blanks' name, after',
              ⟨hsharp, hword.allBlank, hword.other, heq, hname.allBlank, hname.other⟩, ?_⟩
            rw [hdrop, hword.read, ← hword.next, hname.read, Chunk.definition_append]
        · refine ⟨.directive t blanks word, after, ⟨hsharp, hword.allBlank, hword.other, heq⟩, ?_⟩
          rw [hdrop, hword.read, Chunk.directive_append]
    · exact ⟨.single t, toks.drop (i + 1), hsharp, hdrop⟩

theorem Chunk.toks_pos (c : Chunk) : 0 < c.toks.length := by
  cases c with
  | single t => exact Nat.succ_pos _
  | directive t blanks word => exact Nat.succ_pos _
  | definition t blanks word blanks' name => exact Nat.succ_pos _

/-- Where the loop goes on. -/
def DefineRound.after : DefineRound → Nat
  | next i => i
  | used i => i + 1

theorem Chunk.round_after (all : List Tok) (i : Nat) (c : Chunk) :
    (c.round all i).after = i + c.toks.length := by
  have hpos := c.toks_pos
  rw [Chunk.round]
  split
  · rw [DefineRound.after]
    omega
  · rfl

theorem defineRound_cases {toks : List Tok} (h : defineRound toks i = some r) :
    ∃ c : Chunk, c.Valid ∧ toks.drop i = c.toks ++ toks.drop r.after ∧ r = c.round toks i := by
  obtain ⟨c, after, hc, hdrop⟩ := defineRound_some h
  rw [defineRound_chunk hdrop hc] at h
  obtain rfl := Option.some.inj h
  refine ⟨c, hc, ?_, rfl⟩
  rw [Chunk.round_after, drop_behind hdrop]
  exact hdrop

theorem defineRound_after {toks : List Tok} (h : defineRound toks i = some r) : i < r.after := by
  obtain ⟨c, hc, hdrop, rfl⟩ := defineRound_cases h
  rw [Chunk.round_after]
  exact Nat.lt_add_of_pos_right c.toks_pos

theorem defineRound_next {toks : List Tok} (h : defineRound toks i = some (.next j)) :
    ∃ c : Chunk, c.Valid ∧ toks.drop i = c.toks ++ toks.drop j ∧ ¬ c.Defines toks ∧
      j = i + c.toks.length := by
  obtain ⟨c, hc, hdrop, hround⟩ := defineRound_cases h
  rw [Chunk.round] at hround
  split at hround
  · cases hround
  · rename_i hd
    exact ⟨c, hc, hdrop, hd, DefineRound.next.inj hround⟩

theorem defineRound_used {toks : List Tok} (h : defineRound toks i = some (.used j)) :
    ∃ c : Chunk, c.Valid ∧ toks.drop i = c.toks ++ toks.drop (j + 1) ∧ c.Defines toks ∧
      j = i + (c.toks.length - 1) := by
  obtain ⟨c, hc, hdrop, hround⟩ := defineRound_cases h
  rw [Chunk.round] at hround
  split at hround
  · rename_i hd
    exact ⟨c, hc, hdrop, hd, DefineRound.used.inj hround⟩
  · cases hround

/-- The definition of a used macro ends with the name. -/
theorem Chunk.Defines.name {toks : List Tok} {c : Chunk} (hc : c.Defines toks) (hvalid : c.Valid)
    (h : toks.drop i = c.toks ++ after) : ∃ name, Used toks name.str ∧ name.kind ≠ .ws ∧
      toks.drop (i + (c.toks.length - 1)) = name :: after := by
  cases c with
  | single t =>
    obtain ⟨name, hname, -⟩ := hc
    cases hname
  | directive t blanks word =>
    obtain ⟨name, hname, -⟩ := hc
    cases hname
  | definition t blanks word blanks' name =>
    obtain ⟨_, hname, hused⟩ := hc
    obtain rfl := Option.some.inj hname
    refine ⟨name, hused, hvalid.2.2.2.2.2, ?_⟩
    have hsplit : toks.drop i = t :: (blanks ++ word :: blanks') ++ name :: after := by
      rw [h]
      rw [Chunk.definition_append, List.cons_append, List.append_assoc, List.cons_append]
    have hlen : (definition t blanks word blanks' name).toks.length - 1 =
        (t :: (blanks ++ word :: blanks')).length := by
      simp only [Chunk.toks, List.length_cons, List.length_append, List.length_nil]
      omega
    rw [hlen]
    exact drop_behind hsplit

/-- The loop of `define`, at the token `i`. -/
def defineLoop (tokIndex : Int) (toks : List Tok) (i : Nat) (found : Int) : Option ClexOutput :=
  if toks.length ≤ i then some ⟨71, []⟩
  else
    match _ : defineRound toks i with
    | none => none
    | some (.next j) => defineLoop tokIndex toks j found
    | some (.used j) =>
      if found = tokIndex then (replaceMacro toks j).map (⟨51, ·⟩)
      else defineLoop tokIndex toks (j + 1) (found + 1)
termination_by toks.length - i
decreasing_by
  · have hafter : i < j := defineRound_after (by assumption)
    omega
  · have hafter : i < j + 1 := defineRound_after (by assumption)
    omega

/-- `define`; it prints nothing before it has found the macro. -/
def define (tokIndex : Int) (toks : List Tok) : Option ClexOutput := defineLoop tokIndex toks 0 0

def clexDefine (idx : Int) (arg : Argument) : Option ClexOutput :=
  match startScanner arg with
  | none => some ⟨71, []⟩
  | some s => (yylex s).bind fun s => define idx s.tokList

theorem defineLoop_end {toks : List Tok} (h : toks.length ≤ i) :
    defineLoop idx toks i found = some ⟨71, []⟩ := by
  rw [defineLoop, if_pos h]

theorem defineLoop_round {toks : List Tok} (h : i < toks.length) :
    defineLoop idx toks i found = (defineRound toks i).bind fun r =>
      match r with
      | .next j => defineLoop idx toks j found
      | .used j => if found = idx then (replaceMacro toks j).map (⟨51, ·⟩)
          else defineLoop idx toks (j + 1) (found + 1) := by
  rw [defineLoop, if_neg (Nat.not_le_of_lt h)]
  split <;> rename_i hr <;> rw [hr] <;> rfl

/-- Where the loop stops that has read some chunks: at the end of the file, or at the definition
with the index, whose line has an end. -/
def StopsAt (idx : Int) (all : List Tok) (cs : List Chunk) (after : List Tok) : Prop :=
  (after = [] ∧ ∀ n : Nat, n < cs.countP (Chunk.Defines all ·) → (n : Int) ≠ idx) ∨
    ∃ before c, cs = before ++ [c] ∧ c.Defines all ∧
      (before.countP (Chunk.Defines all ·) : Int) = idx ∧ ∃ t ∈ after, t.kind = .newline

/-- The tokens up to that place are chunks: each `#` has the tokens behind it that are read. -/
def StaysInside (idx : Int) (all rest : List Tok) : Prop :=
  ∃ cs after, rest = cs.flatMap Chunk.toks ++ after ∧ (∀ c ∈ cs, c.Valid) ∧
    StopsAt idx all cs after

theorem StaysInside.end_nil (idx : Int) (all : List Tok) : StaysInside idx all [] :=
  ⟨[], [], rfl, fun _ hc => absurd hc List.not_mem_nil,
    .inl ⟨rfl, fun _ hn => absurd hn (Nat.not_lt_zero _)⟩⟩

theorem stopsAt_nil (h : StopsAt idx all [] after) : after = [] := by
  rcases h with ⟨hafter, -⟩ | ⟨before, c, hnil, -⟩
  · exact hafter
  · exact absurd hnil.symm (List.append_ne_nil_of_right_ne_nil _ (List.cons_ne_nil _ _))

/-- The last of some chunks, the first of which is `c`. -/
theorem cons_eq_concat {c d : Chunk} {cs before : List Chunk} (h : c :: cs = before ++ [d]) :
    (cs = [] ∧ before = [] ∧ c = d) ∨ ∃ before', before = c :: before' ∧ cs = before' ++ [d] := by
  cases before with
  | nil =>
    obtain ⟨rfl, rfl⟩ := List.cons.inj h
    exact .inl ⟨rfl, rfl, rfl⟩
  | cons b before' =>
    obtain ⟨rfl, rfl⟩ := List.cons.inj h
    exact .inr ⟨before', rfl, rfl⟩

theorem stopsAt_other {c : Chunk} {cs : List Chunk} (hc : ¬ c.Defines all) :
    StopsAt idx all (c :: cs) after ↔ StopsAt idx all cs after := by
  have hcount (cs : List Chunk) : (c :: cs).countP (Chunk.Defines all ·) =
      cs.countP (Chunk.Defines all ·) :=
    List.countP_cons_of_neg fun h => hc (of_decide_eq_true h)
  rw [StopsAt, hcount, StopsAt]
  apply or_congr_right
  constructor
  · rintro ⟨before, d, hsplit, hd, hidx, hline⟩
    rcases cons_eq_concat hsplit with ⟨-, -, rfl⟩ | ⟨before', rfl, hcs⟩
    · exact absurd hd hc
    · rw [hcount] at hidx
      exact ⟨before', d, hcs, hd, hidx, hline⟩
  · rintro ⟨before, d, rfl, hd, hidx, hline⟩
    rw [← hcount] at hidx
    exact ⟨c :: before, d, rfl, hd, hidx, hline⟩

theorem stopsAt_earlier {c : Chunk} {cs : List Chunk} (hc : c.Defines all) (hidx : idx ≠ 0) :
    StopsAt idx all (c :: cs) after ↔ StopsAt (idx - 1) all cs after := by
  have hcount (cs : List Chunk) : (c :: cs).countP (Chunk.Defines all ·) =
      cs.countP (Chunk.Defines all ·) + 1 :=
    List.countP_cons_of_pos (decide_eq_true hc)
  rw [StopsAt, hcount, StopsAt]
  apply or_congr
  · apply and_congr_right
    intro _
    constructor
    · intro h n hn he
      exact h (n + 1) (Nat.succ_lt_succ hn) (by omega)
    · intro h n hn he
      exact h (n - 1) (by omega) (by omega)
  · constructor
    · rintro ⟨before, d, hsplit, hd, hbefore, hline⟩
      rcases cons_eq_concat hsplit with ⟨-, rfl, -⟩ | ⟨before', rfl, hcs⟩
      · exact absurd hbefore.symm hidx
      · rw [hcount] at hbefore
        exact ⟨before', d, hcs, hd, by omega, hline⟩
    · rintro ⟨before, d, rfl, hd, hbefore, hline⟩
      refine ⟨c :: before, d, rfl, hd, ?_, hline⟩
      rw [hcount]
      omega

theorem stopsAt_chosen {c : Chunk} {cs : List Chunk} (hc : c.Defines all) :
    StopsAt 0 all (c :: cs) after ↔ cs = [] ∧ ∃ t ∈ after, t.kind = .newline := by
  have hcount (cs : List Chunk) : (c :: cs).countP (Chunk.Defines all ·) =
      cs.countP (Chunk.Defines all ·) + 1 :=
    List.countP_cons_of_pos (decide_eq_true hc)
  constructor
  · rintro (⟨-, h⟩ | ⟨before, d, hsplit, -, hbefore, hline⟩)
    · exact absurd rfl (h 0 (by rw [hcount]; exact Nat.succ_pos _))
    · rcases cons_eq_concat hsplit with ⟨hnil, -, -⟩ | ⟨before', rfl, -⟩
      · exact ⟨hnil, hline⟩
      · rw [hcount] at hbefore
        omega
  · rintro ⟨rfl, hline⟩
    exact .inr ⟨[], c, rfl, hc, rfl, hline⟩

/-- A chunk is all that the tokens at a place can start with. -/
theorem Chunk.unique {all rest rest' : List Tok} {c c' : Chunk} (hc : c.Valid) (hc' : c'.Valid)
    (h : all.drop i = c.toks ++ rest) (h' : all.drop i = c'.toks ++ rest') :
    rest = rest' ∧ (c.Defines all ↔ c'.Defines all) := by
  have hround : c.round all i = c'.round all i :=
    Option.some.inj ((defineRound_chunk h hc).symm.trans (defineRound_chunk h' hc'))
  have hlen : c.toks.length = c'.toks.length := by
    have hafter := congrArg DefineRound.after hround
    rw [Chunk.round_after, Chunk.round_after] at hafter
    exact Nat.add_left_cancel hafter
  refine ⟨(List.append_inj (h.symm.trans h') hlen).2, ?_⟩
  rw [Chunk.round, Chunk.round] at hround
  split at hround <;> split at hround
  · exact iff_of_true (by assumption) (by assumption)
  · cases hround
  · cases hround
  · exact iff_of_false (by assumption) (by assumption)

theorem StaysInside.chunk {all rest : List Tok} {c : Chunk} (hc : c.Valid)
    (h : all.drop i = c.toks ++ rest) : StaysInside idx all (c.toks ++ rest) ↔
      if c.Defines all then
        if idx = 0 then ∃ t ∈ rest, t.kind = .newline else StaysInside (idx - 1) all rest
      else StaysInside idx all rest := by
  constructor
  · rintro ⟨cs, after, hsplit, hvalid, hstop⟩
    cases cs with
    | nil =>
      have hlen := congrArg List.length hsplit
      have hpos := c.toks_pos
      rw [stopsAt_nil hstop, List.length_append, List.flatMap_nil] at hlen
      simp only [List.append_nil, List.length_nil] at hlen
      omega
    | cons d cs =>
      rw [List.flatMap_cons, List.append_assoc] at hsplit
      obtain ⟨hrest, hdefines⟩ := Chunk.unique hc (hvalid d List.mem_cons_self) h
        (h.trans hsplit)
      have hcs : ∀ c ∈ cs, c.Valid := fun c hmem => hvalid c (List.mem_cons_of_mem _ hmem)
      by_cases hd : c.Defines all
      · rw [if_pos hd]
        by_cases hidx : idx = 0
        · subst hidx
          obtain ⟨rfl, hline⟩ := (stopsAt_chosen (hdefines.1 hd)).1 hstop
          rw [if_pos rfl, hrest]
          exact hline
        · rw [if_neg hidx]
          exact ⟨cs, after, hrest, hcs, (stopsAt_earlier (hdefines.1 hd) hidx).1 hstop⟩
      · rw [if_neg hd]
        exact ⟨cs, after, hrest, hcs, (stopsAt_other (mt hdefines.2 hd)).1 hstop⟩
  · have hcons {cs : List Chunk} (hcs : ∀ d ∈ cs, d.Valid) : ∀ d ∈ c :: cs, d.Valid :=
      List.forall_mem_cons.2 ⟨hc, hcs⟩
    intro hrest
    by_cases hd : c.Defines all
    · rw [if_pos hd] at hrest
      by_cases hidx : idx = 0
      · subst hidx
        rw [if_pos rfl] at hrest
        refine ⟨[c], rest, ?_, hcons fun d hd => absurd hd List.not_mem_nil,
          (stopsAt_chosen hd).2 ⟨rfl, hrest⟩⟩
        rw [List.flatMap_singleton]
      · rw [if_neg hidx] at hrest
        obtain ⟨cs, after, rfl, hcs, hstop⟩ := hrest
        refine ⟨c :: cs, after, ?_, hcons hcs, (stopsAt_earlier hd hidx).2 hstop⟩
        rw [List.flatMap_cons, List.append_assoc]
    · rw [if_neg hd] at hrest
      obtain ⟨cs, after, rfl, hcs, hstop⟩ := hrest
      refine ⟨c :: cs, after, ?_, hcons hcs, (stopsAt_other hd).2 hstop⟩
      rw [List.flatMap_cons, List.append_assoc]

theorem not_staysInside {all : List Tok} (hi : i < all.length) (h : defineRound all i = none) :
    ¬ StaysInside idx all (all.drop i) := by
  rintro ⟨cs, after, hsplit, hvalid, hstop⟩
  cases cs with
  | nil =>
    have hlen := congrArg List.length hsplit
    rw [stopsAt_nil hstop, List.length_drop] at hlen
    simp only [List.flatMap_nil, List.append_nil, List.length_nil] at hlen
    omega
  | cons c cs =>
    rw [List.flatMap_cons, List.append_assoc] at hsplit
    rw [defineRound_chunk hsplit (hvalid c List.mem_cons_self)] at h
    cases h

theorem skipWhile_isSome {keeps : Tok → Bool} {toks : List Tok} :
    (skipWhile keeps toks i).isSome ↔ ∃ t ∈ toks.drop i, keeps t = false := by
  rw [skipWhile, Option.isSome_map, List.findIdx?_isSome, List.any_eq_true]
  simp only [Bool.not_eq_true']

theorem replaceMacro_isSome {toks : List Tok} (h : toks.drop i = name :: after) :
    (replaceMacro toks i).isSome ↔ ∃ t ∈ after, t.kind = .newline := by
  have hafter : toks.drop (i + 1) = after := drop_next h
  rw [replaceMacro, getElem_of_drop h]
  cases hs : skipBlanks toks (i + 1) with
  | none =>
    have hblank : ¬ ∃ t ∈ toks.drop (i + 1), decide (t.kind = .ws) = false := by
      rw [← skipWhile_isSome]
      exact ne_true_of_eq_false (Option.isSome_eq_false_iff.2 (Option.isNone_iff_eq_none.2 hs))
    refine iff_of_false Bool.false_ne_true ?_
    rintro ⟨t, ht, hline⟩
    refine hblank ⟨t, hafter ▸ ht, decide_eq_false ?_⟩
    rw [hline]
    exact TokKind.noConfusion
  | some start =>
    obtain ⟨blanks, t, rest, hat⟩ := skipBlanks_some hs
    have hline : (∃ u ∈ after, u.kind = .newline) ↔ ∃ u ∈ t :: rest, u.kind = .newline := by
      rw [← hafter, hat.read]
      constructor
      · rintro ⟨u, hu, hline⟩
        refine ⟨u, (List.mem_append.1 hu).resolve_left fun hb => ?_, hline⟩
        rw [hat.allBlank u hb] at hline
        cases hline
      · rintro ⟨u, hu, hline⟩
        exact ⟨u, List.mem_append_right _ hu, hline⟩
    have hstop : (skipWhile (fun t => decide (t.kind ≠ .newline)) toks start).isSome ↔
        ∃ u ∈ toks.drop start, decide (u.kind ≠ .newline) = false := skipWhile_isSome
    rw [hat.here] at hstop
    simp only [decide_eq_false_iff_not, ne_eq, not_not] at hstop
    rw [hline, ← hstop]
    simp only [Option.bind_eq_bind, Option.bind_some, Option.isSome_bind]
    cases skipWhile _ toks start <;> rfl

theorem defineLoop_isSome (idx : Int) (toks : List Tok) (i : Nat) (found : Int) :
    (defineLoop idx toks i found).isSome ↔ StaysInside (idx - found) toks (toks.drop i) := by
  induction i, found using defineLoop.induct idx toks with
  | case1 i found hend =>
    rw [defineLoop_end hend, List.drop_eq_nil_of_le hend]
    exact iff_of_true rfl (StaysInside.end_nil _ _)
  | case2 i found hi hr =>
    rw [defineLoop_round (Nat.lt_of_not_le hi), hr]
    exact iff_of_false Bool.false_ne_true (not_staysInside (Nat.lt_of_not_le hi) hr)
  | case3 i found hi j hr ih =>
    obtain ⟨c, hc, hdrop, hd, -⟩ := defineRound_next hr
    rw [defineLoop_round (Nat.lt_of_not_le hi), hr, hdrop, StaysInside.chunk hc hdrop, if_neg hd]
    exact ih
  | case4 i hi j hr =>
    obtain ⟨c, hc, hdrop, hd, hj⟩ := defineRound_used hr
    obtain ⟨name, -, -, hname⟩ := hd.name hc hdrop
    rw [defineLoop_round (Nat.lt_of_not_le hi), hr, hdrop, StaysInside.chunk hc hdrop, if_pos hd,
      if_pos (sub_self idx), Option.bind_some]
    simp only [if_true, Option.isSome_map]
    rw [← hj] at hname
    exact replaceMacro_isSome hname
  | case5 i found hi j hr hidx ih =>
    obtain ⟨c, hc, hdrop, hd, hj⟩ := defineRound_used hr
    rw [defineLoop_round (Nat.lt_of_not_le hi), hr, hdrop, StaysInside.chunk hc hdrop, if_pos hd,
      if_neg (by omega), Option.bind_some]
    simp only [hidx, if_false]
    rw [ih, ← sub_sub]

/-- No token behind the last one is read. -/
theorem define_inside (idx : Int) (toks : List Tok) :
    (define idx toks).isSome ↔ StaysInside idx toks toks := by
  rw [define, defineLoop_isSome, sub_zero, List.drop_zero]

/-- A file that is a `#`. -/
theorem clexDefine_hash : clexDefine 0 (.file hashSign) = none := by
  decide +kernel

end Cvise
