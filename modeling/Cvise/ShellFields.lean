import Cvise.MakefileParser

namespace Cvise
set_option autoImplicit true

namespace MakefileParser

/-- What a byte of a command line, or an escape in it, is to the shell. -/
inductive ShellPart where
  | blank
  | quote
  | plain (b : UInt8)
  | quoted (b : UInt8)
  /-- A backslash in double quotes with the byte that it escapes. -/
  | escaped (b : UInt8)
  /-- A backslash in double quotes with the newline that it removes. -/
  | joined
  /-- A backslash outside of quotes, and what remains of the byte behind it. -/
  | outside (kept : Bytes)
deriving DecidableEq

/-- The blanks and the line ends in ASCII. -/
def isFieldBlank (b : UInt8) : Bool := b = 32 || b = 9 || b = 10 || b = 13

theorem rest_shorter (c : UInt8) (rest : Bytes) : rest.length < (c :: rest).length :=
  Nat.lt_succ_self _

theorem tail_shorter (c : UInt8) (rest : Bytes) : rest.tail.length < (c :: rest).length :=
  Nat.lt_succ_of_le (List.tail_sublist rest).length_le

/-- The quoting rules of the shell. -/
def shellParts (activeQuote : Option UInt8) (text : Bytes) : List ShellPart :=
  match text with
  | [] => []
  | c :: rest =>
    if activeQuote = some c then .quote :: shellParts none rest
    else if activeQuote = none ∧ (c = 34 ∨ c = 39) then .quote :: shellParts (some c) rest
    else if activeQuote = some 34 ∧ c = 92 ∧ rest.head?.any (· ∈ [36, 96, 34, 92]) then
      .escaped (rest.headD 0) :: shellParts activeQuote rest.tail
    else if activeQuote = some 34 ∧ c = 92 ∧ rest.head? = some 10 then
      .joined :: shellParts activeQuote rest.tail
    else if activeQuote = none ∧ c = 92 then
      .outside (if rest.head? = some 10 then [] else if rest = [] then [92] else rest.take 1) ::
        shellParts none rest.tail
    else if activeQuote = none ∧ isFieldBlank c then .blank :: shellParts none rest
    else
      (if activeQuote = none then .plain c else .quoted c) :: shellParts activeQuote rest
termination_by text.length
decreasing_by
  · exact rest_shorter c rest
  · exact rest_shorter c rest
  · exact tail_shorter c rest
  · exact tail_shorter c rest
  · exact tail_shorter c rest
  · exact rest_shorter c rest
  · exact rest_shorter c rest

/-- What is said about fields: a byte of one, that there is one, or a gap behind one. -/
inductive FieldSignal where
  | byte (b : UInt8)
  | field
  | gap
deriving DecidableEq

def ShellPart.signals : ShellPart → List FieldSignal
  | .blank => [.gap]
  | .quote => [.field]
  | .plain b => [.byte b]
  | .quoted b => [.byte b]
  | .escaped b => [.byte b]
  | .joined => []
  | .outside kept => kept.map .byte

/-- The fields, of which the one that has begun is `current`. -/
def assemble (current : Option Bytes) : List FieldSignal → List Bytes
  | [] => current.toList
  | .byte b :: signals => assemble (some (current.getD [] ++ [b])) signals
  | .field :: signals => assemble (some (current.getD [])) signals
  | .gap :: signals => current.toList ++ assemble none signals

/-- The field splitting of a shell, for a simple command without expansions. -/
def shellFields (text : Bytes) : List Bytes :=
  assemble none ((shellParts none text).flatMap ShellPart.signals)

def ShellPart.isOutside : ShellPart → Bool
  | .outside _ => true
  | _ => false

/-- The text has no backslash outside of quotes. -/
def NoOuterBackslash (text : Bytes) : Prop := ∀ p ∈ shellParts none text, p.isOutside = false

instance (text : Bytes) : Decidable (NoOuterBackslash text) :=
  inferInstanceAs (Decidable (∀ p ∈ shellParts none text, p.isOutside = false))

/-- In double quotes nothing is escaped, and outside of quotes nothing but the blanks of the shell is
a space to `str.isspace`. -/
def ShellPart.Simple : ShellPart → Prop
  | .plain b => isShellSpace b = false
  | .escaped _ => False
  | .joined => False
  | _ => True

/-- What the source makes of each byte. -/
def tokenSignals (activeQuote : Option UInt8) : Bytes → List FieldSignal
  | [] => []
  | c :: rest =>
    if (c = 34 ∨ c = 39) ∧ activeQuote = some c then .field :: tokenSignals none rest
    else if (c = 34 ∨ c = 39) ∧ activeQuote = none then .field :: tokenSignals (some c) rest
    else if isShellSpace c ∧ activeQuote = none then .gap :: tokenSignals none rest
    else .byte c :: tokenSignals activeQuote rest

/-- No byte is ever found among the characters that could be escaped. -/
theorem not_escapable (rest : Bytes) :
    rest.head?.any (fun b => IntOrStr.int b.toNat ∈ escapable) = false := by
  cases rest with
  | nil => rfl
  | cons b rest => simp [escapable]

theorem scanToken_cons (q : Option UInt8) (c : UInt8) (rest : Bytes) : scanToken q (c :: rest) =
    if (c = 34 ∨ c = 39) ∧ q = some c then
      ((scanToken none rest).1, (scanToken none rest).2 + 1)
    else if (c = 34 ∨ c = 39) ∧ q = none then
      ((scanToken (some c) rest).1, (scanToken (some c) rest).2 + 1)
    else if isShellSpace c ∧ q = none then ([], 0)
    else (c :: (scanToken q rest).1, (scanToken q rest).2 + 1) := by
  rw [scanToken, not_escapable]
  simp only [Bool.false_eq_true, and_false, if_false]

theorem assemble_scanToken (q : Option UInt8) (current text : Bytes) :
    assemble (some current) (tokenSignals q text) =
      (current ++ (scanToken q text).1) ::
        assemble none (tokenSignals none (text.drop (scanToken q text).2)) := by
  induction text generalizing q current with
  | nil => simp [tokenSignals, assemble, scanToken]
  | cons c rest ih =>
    rw [scanToken_cons, tokenSignals]
    split
    · exact ih none current
    · split
      · exact ih (some c) current
      · split
        · rename_i hstart hspace
          rw [List.append_nil, List.drop_zero, tokenSignals, if_neg (by simp), if_neg (by
            rw [hspace.2] at hstart; exact hstart), if_pos ⟨hspace.1, rfl⟩]
          rfl
        · rw [assemble, ih]
          simp

theorem tokenSignals_spaces (text : Bytes) : assemble none (tokenSignals none text) =
    assemble none (tokenSignals none (text.dropWhile isShellSpace)) := by
  induction text with
  | nil => rfl
  | cons c rest ih =>
    by_cases hspace : isShellSpace c = true
    · have hquote : ¬(c = 34 ∨ c = 39) := by
        rintro (rfl | rfl) <;> exact absurd hspace (by decide)
      rw [List.dropWhile_cons_of_pos hspace, ← ih, tokenSignals, if_neg (fun h => hquote h.1),
        if_neg (fun h => hquote h.1), if_pos ⟨hspace, rfl⟩]
      rfl
    · rw [List.dropWhile_cons_of_neg hspace]

theorem shellTokens_nil {text : Bytes} (h : text.dropWhile isShellSpace = []) (pos : Nat) :
    shellTokens pos text = [] := by
  rw [shellTokens]
  split
  · rfl
  · rename_i c rest hrest
    cases hrest.symm.trans h

theorem shellTokens_cons {text : Bytes} (h : text.dropWhile isShellSpace = c :: rest) (pos : Nat) :
    shellTokens pos text =
      ⟨⟨pos + (text.takeWhile isShellSpace).length,
          pos + (text.takeWhile isShellSpace).length + (scanToken none (c :: rest)).2⟩,
        (scanToken none (c :: rest)).1,
        if 0 < (text.takeWhile isShellSpace).length then
          some ⟨pos, pos + (text.takeWhile isShellSpace).length⟩ else none⟩ ::
      shellTokens (pos + (text.takeWhile isShellSpace).length + (scanToken none (c :: rest)).2)
        ((c :: rest).drop (scanToken none (c :: rest)).2) := by
  rw [shellTokens]
  split
  · rename_i hnil
    cases hnil.symm.trans h
  · rename_i c' rest' hcons
    obtain ⟨rfl, rfl⟩ := List.cons.inj (hcons.symm.trans h)
    rfl

theorem head_dropWhile {text : Bytes} (h : text.dropWhile isShellSpace = c :: rest) :
    isShellSpace c = false := by
  have hne : text.dropWhile isShellSpace ≠ [] := h ▸ List.cons_ne_nil c rest
  have hhead := List.head_dropWhile_not isShellSpace hne
  simpa only [h, List.head_cons] using hhead

theorem assemble_begin (h : isShellSpace c = false) (rest : Bytes) :
    assemble none (tokenSignals none (c :: rest)) =
      assemble (some []) (tokenSignals none (c :: rest)) := by
  rw [tokenSignals]
  split
  · rfl
  · split
    · rfl
    · rw [if_neg (by simp [h])]
      rfl

/-- The values of the tokens are the fields that the source sees. -/
theorem shellTokens_values (pos : Nat) (text : Bytes) :
    (shellTokens pos text).map (·.value) = assemble none (tokenSignals none text) := by
  rw [tokenSignals_spaces]
  induction hn : text.length using Nat.strong_induction_on generalizing text pos with
  | _ n ih =>
    cases h : text.dropWhile isShellSpace with
    | nil =>
      rw [shellTokens_nil h]
      rfl
    | cons c rest =>
      have hlt := drop_scanToken_length h
      rw [shellTokens_cons h, List.map_cons, ih _ (hn ▸ hlt) _ _ rfl, ← tokenSignals_spaces,
        assemble_begin (head_dropWhile h), assemble_scanToken, List.nil_append]

/-- The shell and the source on the same text, as long as they are in the same quotes. -/
inductive Reading : List ShellPart → List FieldSignal → Prop where
  | done : Reading [] []
  | same {p : ShellPart} {signal : FieldSignal} {ps : List ShellPart} {signals : List FieldSignal}
      (hs : p.signals = [signal]) (hp : p.Simple) : Reading ps signals →
      Reading (p :: ps) (signal :: signals)
  | oddSpace (hb : isShellSpace b = true) (hodd : isFieldBlank b = false) : Reading ps signals →
      Reading (.plain b :: ps) (.gap :: signals)
  | escaped (hb : b ∈ [36, 96, 34]) : Reading (.escaped b :: ps) (.byte 92 :: signals)
  | backslash : Reading ps signals →
      Reading (.escaped 92 :: ps) (.byte 92 :: .byte 92 :: signals)
  | joined : Reading ps signals → Reading (.joined :: ps) (.byte 92 :: .byte 10 :: signals)

theorem tokenSignals_byte {q : Option UInt8} (hquote : q ≠ some c)
    (hplain : q = none → c ≠ 34 ∧ c ≠ 39 ∧ isShellSpace c = false) (rest : Bytes) :
    tokenSignals q (c :: rest) = .byte c :: tokenSignals q rest := by
  rw [tokenSignals, if_neg (fun h => hquote h.2), if_neg, if_neg]
  · rintro ⟨hspace, hq⟩
    rw [(hplain hq).2.2] at hspace
    cases hspace
  · rintro ⟨hc, hq⟩
    exact hc.elim (hplain hq).1 (hplain hq).2.1

theorem fieldBlank_space (h : isFieldBlank c = true) : isShellSpace c = true := by
  simp only [isFieldBlank, Bool.or_eq_true, decide_eq_true_eq] at h
  rcases h with ((rfl | rfl) | rfl) | rfl <;> decide

theorem reading (q : Option UInt8) (text : Bytes) (hq : ∀ c, q = some c → c = 34 ∨ c = 39)
    (h : ∀ p ∈ shellParts q text, p.isOutside = false) :
    Reading (shellParts q text) (tokenSignals q text) := by
  induction q, text using shellParts.induct with
  | case1 q =>
    rw [shellParts, tokenSignals]
    exact .done
  | case2 c rest ih =>
    have hparts : shellParts (some c) (c :: rest) = .quote :: shellParts none rest := by
      rw [shellParts, if_pos rfl]
    rw [hparts] at h ⊢
    rw [tokenSignals, if_pos ⟨hq c rfl, rfl⟩]
    exact .same rfl trivial (ih (fun c hc => by cases hc) (List.forall_mem_cons.1 h).2)
  | case3 q c rest hne hopen ih =>
    obtain ⟨rfl, hc⟩ := hopen
    have hparts : shellParts none (c :: rest) = .quote :: shellParts (some c) rest := by
      rw [shellParts, if_neg hne, if_pos ⟨rfl, hc⟩]
    rw [hparts] at h ⊢
    rw [tokenSignals, if_neg fun h => hne h.2, if_pos ⟨hc, rfl⟩]
    exact .same rfl trivial
      (ih (fun c' hc' => Option.some.inj hc' ▸ hc) (List.forall_mem_cons.1 h).2)
  | case4 q c rest hne hopen hescape ih =>
    have hparts : shellParts q (c :: rest) =
        .escaped (rest.headD 0) :: shellParts q rest.tail := by
      rw [shellParts, if_neg hne, if_neg hopen, if_pos hescape]
    rw [hparts] at h ⊢
    obtain ⟨rfl, rfl, hnext⟩ := hescape
    cases rest with
    | nil => cases hnext
    | cons d rest =>
      have hd : d ∈ [36, 96, 34, 92] := of_decide_eq_true hnext
      rw [tokenSignals_byte (by decide) (fun hq => by cases hq)]
      by_cases hback : d = 92
      · subst hback
        rw [tokenSignals_byte (by decide) (fun hq => by cases hq)]
        exact .backslash (ih hq (List.forall_mem_cons.1 h).2)
      · refine .escaped ?_
        show d ∈ [36, 96, 34]
        simpa [hback] using hd
  | case5 q c rest hne hopen hescape hjoin ih =>
    have hparts : shellParts q (c :: rest) = .joined :: shellParts q rest.tail := by
      rw [shellParts, if_neg hne, if_neg hopen, if_neg hescape, if_pos hjoin]
    rw [hparts] at h ⊢
    obtain ⟨rfl, rfl, hnext⟩ := hjoin
    cases rest with
    | nil => cases hnext
    | cons d rest =>
      obtain rfl := Option.some.inj hnext
      rw [tokenSignals_byte (by decide) (fun hq => by cases hq),
        tokenSignals_byte (by decide) (fun hq => by cases hq)]
      exact .joined (ih hq (List.forall_mem_cons.1 h).2)
  | case6 q c rest hne hopen hescape hjoin hout ih =>
    rw [shellParts, if_neg hne, if_neg hopen, if_neg hescape, if_neg hjoin, if_pos hout] at h
    cases (List.forall_mem_cons.1 h).1
  | case7 q c rest hne hopen hescape hjoin hout hblank ih =>
    have hparts : shellParts q (c :: rest) = .blank :: shellParts none rest := by
      rw [shellParts, if_neg hne, if_neg hopen, if_neg hescape, if_neg hjoin, if_neg hout,
        if_pos hblank]
    rw [hparts] at h ⊢
    obtain ⟨rfl, hblank⟩ := hblank
    rw [tokenSignals, if_neg fun h => hne h.2, if_neg fun h => hopen ⟨rfl, h.1⟩,
      if_pos ⟨fieldBlank_space hblank, rfl⟩]
    exact .same rfl trivial (ih (fun c hc => by cases hc) (List.forall_mem_cons.1 h).2)
  | case8 q c rest hne hopen hescape hjoin hout hblank ih =>
    have hparts : shellParts q (c :: rest) =
        (if q = none then .plain c else .quoted c) :: shellParts q rest := by
      rw [shellParts, if_neg hne, if_neg hopen, if_neg hescape, if_neg hjoin, if_neg hout,
        if_neg hblank]
    rw [hparts] at h ⊢
    have hrest := ih hq (List.forall_mem_cons.1 h).2
    by_cases hnone : q = none
    · subst hnone
      rw [if_pos rfl]
      by_cases hspace : isShellSpace c = true
      · rw [tokenSignals, if_neg fun h => hne h.2, if_neg fun h => hopen ⟨rfl, h.1⟩,
          if_pos ⟨hspace, rfl⟩]
        exact .oddSpace hspace (Bool.eq_false_iff.2 fun h => hblank ⟨rfl, h⟩) hrest
      · have hspace := Bool.eq_false_iff.2 hspace
        have hquote := not_or.1 fun hc => hopen ⟨rfl, hc⟩
        rw [tokenSignals_byte hne fun _ => ⟨hquote.1, hquote.2, hspace⟩]
        exact .same rfl hspace hrest
    · rw [if_neg hnone, tokenSignals_byte hne fun hq => absurd hq hnone]
      exact .same rfl trivial hrest

def fieldBytes (signals : List FieldSignal) : Bytes :=
  signals.filterMap fun
    | .byte b => some b
    | _ => none

theorem assemble_flatten (current : Option Bytes) (signals : List FieldSignal) :
    (assemble current signals).flatten = current.getD [] ++ fieldBytes signals := by
  induction signals generalizing current with
  | nil => cases current <;> simp [assemble, fieldBytes]
  | cons signal signals ih =>
    cases signal with
    | byte b =>
      rw [assemble, ih]
      simp [fieldBytes]
    | field =>
      rw [assemble, ih]
      simp [fieldBytes]
    | gap =>
      rw [assemble, List.flatten_append, ih]
      cases current <;> simp [fieldBytes]

/-- The bytes that the shell has in its fields. -/
def partBytes (ps : List ShellPart) : Bytes := fieldBytes (ps.flatMap ShellPart.signals)

theorem partBytes_cons (p : ShellPart) (ps : List ShellPart) :
    partBytes (p :: ps) = fieldBytes p.signals ++ partBytes ps := by
  rw [partBytes, List.flatMap_cons, fieldBytes, List.filterMap_append]
  rfl

theorem fieldBytes_cons (signal : FieldSignal) (signals : List FieldSignal) :
    fieldBytes (signal :: signals) = fieldBytes [signal] ++ fieldBytes signals := by
  rw [← List.singleton_append, fieldBytes, List.filterMap_append]
  rfl

/-- A signal that both have leaves one of them ahead, by as many bytes of the same kind. -/
theorem shift_ahead {P : UInt8 → Prop} {signal : FieldSignal}
    (h : fieldBytes [signal] ++ xs = ahead ++ (fieldBytes [signal] ++ ys)) (hne : ahead ≠ [])
    (hall : ∀ b ∈ ahead, P b) : ∃ ahead', xs = ahead' ++ ys ∧ ahead' ≠ [] ∧ ∀ b ∈ ahead', P b := by
  cases signal with
  | byte b =>
    obtain ⟨a, ahead, rfl⟩ := List.exists_cons_of_ne_nil hne
    obtain ⟨rfl, hrest⟩ := List.cons.inj (show b :: xs = a :: (ahead ++ b :: ys) from h)
    refine ⟨ahead ++ [b], by rw [List.append_assoc]; exact hrest, by simp, fun x hx => ?_⟩
    rcases List.mem_append.1 hx with hx | hx
    · exact hall x (List.mem_cons_of_mem _ hx)
    · exact List.mem_singleton.1 hx ▸ hall b List.mem_cons_self
  | field => exact ⟨ahead, h, hne, hall⟩
  | gap => exact ⟨ahead, h, hne, hall⟩

/-- A backslash too many is never made up for. -/
theorem Reading.ahead (h : Reading ps signals) (hne : extra ≠ [])
    (hall : ∀ b ∈ extra, b = 92 ∨ b = 10) : partBytes ps ≠ extra ++ fieldBytes signals := by
  intro he
  obtain ⟨a, tail, rfl⟩ := List.exists_cons_of_ne_nil hne
  induction h generalizing a tail with
  | done => cases he
  | @same p signal ps signals hs hp _ ih =>
    rw [partBytes_cons, hs, fieldBytes_cons signal signals] at he
    obtain ⟨extra, he, hne, hall⟩ := shift_ahead he hne hall
    obtain ⟨a, tail, rfl⟩ := List.exists_cons_of_ne_nil hne
    exact ih a tail hne hall he
  | @oddSpace b ps signals hb hodd _ _ =>
    obtain ⟨rfl, -⟩ := List.cons.inj he
    rcases hall b List.mem_cons_self with rfl | rfl
    · exact absurd hb (by decide)
    · exact absurd hodd (by decide)
  | @escaped b signals ps hb =>
    obtain ⟨rfl, -⟩ := List.cons.inj he
    rcases hall b List.mem_cons_self with rfl | rfl
    · exact absurd hb (by decide)
    · exact absurd hb (by decide)
  | @backslash ps signals _ ih =>
    obtain ⟨rfl, hrest⟩ := List.cons.inj (show (92 : UInt8) :: partBytes ps =
      a :: (tail ++ 92 :: 92 :: fieldBytes signals) from he)
    have he : partBytes ps = (tail ++ [92, 92]) ++ fieldBytes signals := by
      rw [List.append_assoc]
      exact hrest
    obtain ⟨a, tail', htail⟩ := List.exists_cons_of_ne_nil (l := tail ++ [92, 92]) (by simp)
    have hall' : ∀ b ∈ tail ++ [92, 92], b = 92 ∨ b = 10 := fun b hb => by
      rcases List.mem_append.1 hb with hb | hb
      · exact hall b (List.mem_cons_of_mem _ hb)
      · exact .inl (by simpa using hb)
    rw [htail] at he hall'
    exact ih a tail' (List.cons_ne_nil _ _) hall' he
  | @joined ps signals _ ih =>
    have he : partBytes ps = (a :: (tail ++ [92, 10])) ++ fieldBytes signals := by
      rw [List.cons_append, List.append_assoc]
      exact he
    refine ih a (tail ++ [92, 10]) (List.cons_ne_nil _ _) (fun b hb => ?_) he
    rw [← List.cons_append] at hb
    rcases List.mem_append.1 hb with hb | hb
    · exact hall b hb
    · simpa using hb

/-- A byte that was taken for a space is never made up for. -/
theorem Reading.behind (h : Reading ps signals) (hne : lost ≠ [])
    (hall : ∀ b ∈ lost, isShellSpace b = true) : lost ++ partBytes ps ≠ fieldBytes signals := by
  intro he
  have hback {lost tail rest : Bytes} (hall : ∀ b ∈ lost, isShellSpace b = true) (hne : lost ≠ []) :
      lost ++ tail ≠ 92 :: rest := by
    intro he
    obtain ⟨a, lost, rfl⟩ := List.exists_cons_of_ne_nil hne
    obtain ⟨rfl, -⟩ := List.cons.inj he
    exact absurd (hall 92 List.mem_cons_self) (by decide)
  induction h generalizing lost with
  | done => exact hne (List.append_eq_nil_iff.1 he).1
  | @same p signal ps signals hs hp _ ih =>
    rw [partBytes_cons, hs, fieldBytes_cons signal signals] at he
    obtain ⟨lost, he, hne, hall⟩ := shift_ahead he.symm hne hall
    exact ih hne hall he.symm
  | @oddSpace b ps signals hb hodd _ ih =>
    have hspaces : ∀ x ∈ lost ++ [b], isShellSpace x = true := by
      intro x hx
      rcases List.mem_append.1 hx with hx | hx
      · exact hall x hx
      · exact List.mem_singleton.1 hx ▸ hb
    refine ih (by simp) hspaces ?_
    rw [List.append_assoc]
    exact he
  | escaped hb => exact hback hall hne he
  | backslash _ _ => exact hback hall hne he
  | joined _ _ => exact hback hall hne he

/-- Where the bytes are the same, nothing was read in two ways. -/
theorem Reading.simple (h : Reading ps signals) (he : partBytes ps = fieldBytes signals) :
    ∀ p ∈ ps, p.Simple := by
  induction h with
  | done => exact fun p hp => absurd hp List.not_mem_nil
  | @same p signal ps signals hs hp _ ih =>
    rw [partBytes_cons, hs, fieldBytes_cons signal signals] at he
    exact List.forall_mem_cons.2 ⟨hp, ih (List.append_cancel_left he)⟩
  | @oddSpace b ps signals hb hodd hrest _ =>
    have hspace : ∀ x ∈ [b], isShellSpace x = true := fun x hx => List.mem_singleton.1 hx ▸ hb
    exact absurd he (hrest.behind (List.cons_ne_nil _ _) hspace)
  | @escaped b signals ps hb =>
    obtain ⟨rfl, -⟩ := List.cons.inj he
    exact absurd hb (by decide)
  | @backslash ps signals hrest _ =>
    have hback : ∀ b ∈ [(92 : UInt8)], b = 92 ∨ b = 10 := fun b hb => .inl (List.mem_singleton.1 hb)
    exact absurd (List.cons.inj he).2 (hrest.ahead (List.cons_ne_nil _ _) hback)
  | @joined ps signals hrest _ =>
    have hjoin : ∀ b ∈ [(92 : UInt8), 10], b = 92 ∨ b = 10 := fun b hb => by simpa using hb
    exact absurd he (hrest.ahead (List.cons_ne_nil _ _) hjoin)

theorem Reading.eq_signals (h : Reading ps signals) (hall : ∀ p ∈ ps, p.Simple) :
    ps.flatMap ShellPart.signals = signals := by
  induction h with
  | done => rfl
  | @same p signal ps signals hs hp _ ih =>
    rw [List.flatMap_cons, hs, ih (List.forall_mem_cons.1 hall).2]
    rfl
  | @oddSpace b ps signals hb hodd _ _ =>
    exact absurd ((List.forall_mem_cons.1 hall).1.symm.trans hb) Bool.false_ne_true
  | escaped hb => exact ((List.forall_mem_cons.1 hall).1).elim
  | backslash _ _ => exact ((List.forall_mem_cons.1 hall).1).elim
  | joined _ _ => exact ((List.forall_mem_cons.1 hall).1).elim

/-- The source splits a command line as the shell does exactly where nothing is escaped in double
quotes and no other space stands outside of quotes. -/
theorem splits_as_shell_iff (text : TextWithLoc) (h : NoOuterBackslash text.value) :
    (splitShellCmdLine text).map (·.value) = shellFields text.value ↔
      ∀ p ∈ shellParts none text.value, p.Simple := by
  have hread := reading none text.value (fun c hc => by cases hc) h
  rw [splitShellCmdLine, shellTokens_values, shellFields]
  constructor
  · intro he
    have hbytes := congrArg List.flatten he
    rw [assemble_flatten, assemble_flatten] at hbytes
    exact hread.simple hbytes.symm
  · intro hall
    rw [hread.eq_signals hall]

theorem splits_as_shell_iff_quoted :
    (splitShellCmdLine ⟨⟨0, 9⟩, "cc 'a \\'".toUTF8.data.toList, none⟩).map (·.value) =
        shellFields "cc 'a \\'".toUTF8.data.toList ↔
      ∀ p ∈ shellParts none "cc 'a \\'".toUTF8.data.toList, p.Simple :=
  splits_as_shell_iff _ (by decide +kernel)

/-- An escaped quote is taken for the end of the quotes. -/
theorem escaped_quote_splits : NoOuterBackslash "\"a\\\"b c\"".toUTF8.data.toList ∧
    (splitShellCmdLine ⟨⟨0, 8⟩, "\"a\\\"b c\"".toUTF8.data.toList, none⟩).map (·.value) =
      ["a\\b".toUTF8.data.toList, "c".toUTF8.data.toList] ∧
    shellFields "\"a\\\"b c\"".toUTF8.data.toList = ["a\"b c".toUTF8.data.toList] := by
  refine ⟨?_, ?_, ?_⟩
  · decide +kernel
  · rw [splitShellCmdLine, shellTokens_values]
    decide +kernel
  · decide +kernel

end MakefileParser

end Cvise
