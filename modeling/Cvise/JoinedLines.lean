import Cvise.MakefileParser
import Mathlib.Data.List.TakeWhile

namespace Cvise
set_option autoImplicit true

namespace MakefileParser

/-- Where the joining of lines is: in the text of a line, between the backslash and the end of a line
that is continued, or at the begin of the line that continues it. -/
inductive JoinState where
  | text
  | continued
  | nextLine
deriving DecidableEq

/-- The end of the line and then one more line follow. -/
def continues (rest : Bytes) : Bool :=
  match rest.dropWhile (· = 13) with
  | 10 :: _ :: _ => true
  | _ => false

/-- A byte of the file, with the byte that stands for it in the joined line. -/
def joinByte (st : JoinState) (b : UInt8) (rest : Bytes) : (UInt8 × UInt8) × JoinState :=
  if b = 92 ∧ continues rest then ((92, 32), .continued)
  else if st = .continued then ((b, b), if b = 10 then .nextLine else .continued)
  else if st = .nextLine ∧ b = 9 then ((9, 32), .text)
  else ((b, b), .text)

def consLine (x : α) : List (List α) → List (List α)
  | [] => [[x]]
  | line :: lines => (x :: line) :: lines

/-- The logical lines of a text, each byte with the one that stands for it. -/
def joinedLines (st : JoinState) : Bytes → List (List (UInt8 × UInt8))
  | [] => []
  | b :: rest =>
    if b = 10 ∧ st ≠ .continued then [(b, b)] :: joinedLines .text rest
    else consLine (joinByte st b rest).1 (joinedLines (joinByte st b rest).2 rest)

/-- The text as it is written in the file. -/
def fileText (line : List (UInt8 × UInt8)) : Bytes := line.map Prod.fst

def joinedText (line : List (UInt8 × UInt8)) : Bytes := line.map Prod.snd

def appendHead (front : List α) : List (List α) → List (List α)
  | [] => [front]
  | line :: lines => (front ++ line) :: lines

theorem consLine_flatten (x : α) (lines : List (List α)) :
    (consLine x lines).flatten = x :: lines.flatten := by
  cases lines with
  | nil => rfl
  | cons line lines => rfl

theorem joinByte_fst (st : JoinState) (b : UInt8) (rest : Bytes) : (joinByte st b rest).1.1 = b := by
  rw [joinByte]
  split
  · rename_i h
    exact h.1.symm
  · split
    · rfl
    · split
      · rename_i h
        exact h.2.symm
      · rfl

theorem fileText_joinedLines (st : JoinState) (data : Bytes) :
    fileText (joinedLines st data).flatten = data := by
  induction data generalizing st with
  | nil => rfl
  | cons b rest ih =>
    rw [joinedLines]
    split
    · rw [List.flatten_cons, fileText, List.map_append]
      exact congrArg (b :: ·) (ih .text)
    · rw [consLine_flatten, fileText, List.map_cons, joinByte_fst]
      exact congrArg (b :: ·) (ih _)

theorem joinedLines_ne_nil (st : JoinState) (h : rest ≠ []) : joinedLines st rest ≠ [] := by
  intro he
  have htext := fileText_joinedLines st rest
  rw [he] at htext
  exact h htext.symm

theorem appendHead_consLine (x : α) (front : List α) (lines : List (List α)) :
    appendHead (x :: front) lines = consLine x (appendHead front lines) := by
  cases lines with
  | nil => rfl
  | cons line lines => rfl

/-- What one line of the file becomes: its tab, at the begin of a line that continues another, and
the backslash that continues it are blanks. -/
def fixTab (st : JoinState) (line : Bytes) : Bytes :=
  if st = .nextLine ∧ line.head? = some 9 then line.set 0 32 else line

theorem fixTab_cons (st : JoinState) (b : UInt8) (line : Bytes) :
    fixTab st (b :: line) = (if st = .nextLine ∧ b = 9 then 32 else b) :: line := by
  rw [fixTab]
  by_cases htab : st = .nextLine ∧ b = 9
  · rw [if_pos htab, if_pos ⟨htab.1, congrArg some htab.2⟩]
    rfl
  · rw [if_neg htab, if_neg fun h => htab ⟨h.1, Option.some.inj h.2⟩]

theorem continues_body (h : ∀ b ∈ body, b ≠ 10) (hc : c ≠ 10) (hcr : c ≠ 13) (rest : Bytes) :
    continues (body ++ c :: rest) = false := by
  have hdrop : ∃ d ds, (body ++ c :: rest).dropWhile (· = 13) = d :: ds ∧ d ≠ 10 := by
    induction body with
    | nil =>
      refine ⟨c, rest, ?_, hc⟩
      rw [List.nil_append, List.dropWhile_cons_of_neg (by simpa using hcr)]
    | cons b body ih =>
      obtain ⟨hb, hbody⟩ := List.forall_mem_cons.1 h
      by_cases hb13 : b = 13
      · rw [List.cons_append, List.dropWhile_cons_of_pos (by simpa using hb13)]
        exact ih hbody
      · refine ⟨b, body ++ c :: rest, ?_, hb⟩
        rw [List.cons_append, List.dropWhile_cons_of_neg (by simpa using hb13)]
  obtain ⟨d, ds, hd, hne⟩ := hdrop
  rw [continues, hd]
  split
  · rename_i he
    exact absurd (List.cons.inj he).1 hne
  · rfl

/-- No backslash of the text continues a line. -/
def Quiet (text rest : Bytes) : Prop :=
  ∀ u v, text = u ++ 92 :: v → continues (v ++ rest) = false

theorem Quiet.tail (h : Quiet (b :: text) rest) : Quiet text rest :=
  fun u v he => h (b :: u) v (congrArg (b :: ·) he)

theorem map_consLine (p : UInt8 × UInt8) (lines : List (List (UInt8 × UInt8))) :
    (consLine p lines).map joinedText = consLine p.2 (lines.map joinedText) := by
  cases lines with
  | nil => rfl
  | cons line lines => rfl

theorem joinedLines_text (hbody : ∀ b ∈ body, b ≠ 10) (hquiet : Quiet body rest)
    (hrest : body ++ rest ≠ []) : (joinedLines .text (body ++ rest)).map joinedText =
      appendHead body ((joinedLines .text rest).map joinedText) := by
  induction body with
  | nil =>
    obtain ⟨line, lines, he⟩ := List.exists_cons_of_ne_nil (joinedLines_ne_nil .text hrest)
    rw [List.nil_append] at he ⊢
    rw [he]
    rfl
  | cons b body ih =>
    obtain ⟨hb, hbody⟩ := List.forall_mem_cons.1 hbody
    have hplain : joinByte .text b (body ++ rest) = ((b, b), .text) := by
      rw [joinByte, if_neg, if_neg JoinState.noConfusion, if_neg fun h => JoinState.noConfusion h.1]
      rintro ⟨rfl, hc⟩
      rw [hquiet [] body rfl] at hc
      cases hc
    rw [List.cons_append, joinedLines, if_neg fun h => hb h.1, hplain, map_consLine,
      appendHead_consLine]
    by_cases hempty : body ++ rest = []
    · obtain ⟨rfl, rfl⟩ := List.append_eq_nil_iff.1 hempty
      rfl
    · rw [ih hbody hquiet.tail hempty]

/-- At the begin of a line, a tab may become a blank. -/
theorem joinedLines_begin {st : JoinState} (hst : st ≠ .continued) (hbody : ∀ b ∈ body, b ≠ 10)
    (hne : body ≠ []) (hquiet : Quiet body rest) :
    (joinedLines st (body ++ rest)).map joinedText =
      appendHead (fixTab st body) ((joinedLines .text rest).map joinedText) := by
  obtain ⟨b, body, rfl⟩ := List.exists_cons_of_ne_nil hne
  obtain ⟨hb, hbody⟩ := List.forall_mem_cons.1 hbody
  have hfirst : joinByte st b (body ++ rest) =
      ((b, if st = .nextLine ∧ b = 9 then 32 else b), .text) := by
    rw [joinByte, if_neg, if_neg hst]
    · split
      · rename_i h
        rw [h.2]
      · rfl
    · rintro ⟨rfl, hc⟩
      rw [hquiet [] body rfl] at hc
      cases hc
  rw [List.cons_append, joinedLines, if_neg fun h => hb h.1, hfirst, map_consLine, fixTab_cons,
    appendHead_consLine]
  by_cases hempty : body ++ rest = []
  · obtain ⟨rfl, rfl⟩ := List.append_eq_nil_iff.1 hempty
    rfl
  · rw [joinedLines_text hbody hquiet.tail hempty]

theorem joinedLines_newline {st : JoinState} (hst : st ≠ .continued) (rest : Bytes) :
    (joinedLines st (10 :: rest)).map joinedText =
      [10] :: (joinedLines .text rest).map joinedText := by
  rw [joinedLines, if_pos ⟨rfl, hst⟩]
  rfl

theorem joinedLines_continued (hcrs : ∀ b ∈ crs, b = 13) (hrest : rest ≠ []) :
    (joinedLines .continued (crs ++ 10 :: rest)).map joinedText =
      appendHead (crs ++ [10]) ((joinedLines .nextLine rest).map joinedText) := by
  induction crs with
  | nil =>
    rw [List.nil_append, joinedLines, if_neg fun h => h.2 rfl, joinByte,
      if_neg fun h => absurd h.1 (by decide), if_pos rfl, map_consLine]
    obtain ⟨line, lines, he⟩ := List.exists_cons_of_ne_nil (joinedLines_ne_nil .nextLine hrest)
    rw [if_pos rfl, he]
    rfl
  | cons b crs ih =>
    obtain ⟨rfl, hcrs'⟩ := List.forall_mem_cons.1 hcrs
    rw [List.cons_append, joinedLines, if_neg fun h => absurd h.1 (by decide), joinByte,
      if_neg fun h => absurd h.1 (by decide), if_pos rfl, map_consLine, if_neg (by decide), ih hcrs']
    exact (appendHead_consLine 13 (crs ++ [10]) _).symm

theorem continues_end (hcrs : ∀ b ∈ crs, b = 13) (hrest : rest ≠ []) :
    continues (crs ++ 10 :: rest) = true := by
  obtain ⟨b, rest, rfl⟩ := List.exists_cons_of_ne_nil hrest
  rw [continues, List.dropWhile_append_of_pos fun b hb => decide_eq_true (hcrs b hb)]
  rfl

theorem joinLine_fixTab (lines : List Bytes) (cur : Bytes) : joinLine lines cur =
    if (lines.getLast?.map endsInBackslash).getD false then
      lines.modifyLast fun last => last.set (lastBackslash last) 32 ++ fixTab .nextLine cur
    else lines ++ [cur] := by
  simp only [joinLine, fixTab, true_and]

theorem joinLine_singleton (line cur : Bytes) : joinLine [line] cur =
    if endsInBackslash line then [line.set (lastBackslash line) 32 ++ fixTab .nextLine cur]
    else [line, cur] := by
  rw [joinLine_fixTab]
  rfl

theorem joinLine_append (done : List Bytes) (h : lines ≠ []) (cur : Bytes) :
    joinLine (done ++ lines) cur = done ++ joinLine lines cur := by
  rw [joinLine, joinLine, List.getLast?_append_of_ne_nil done h]
  split
  · rw [List.modifyLast_append_of_right_ne_nil _ _ _ h]
  · rw [List.append_assoc]

theorem joinLine_ne_nil (lines : List Bytes) (cur : Bytes) : joinLine lines cur ≠ [] := by
  rw [joinLine]
  split
  · rename_i hlast
    rcases List.eq_nil_or_concat lines with rfl | ⟨front, line, rfl⟩
    · cases hlast
    · rw [List.concat_eq_append, List.modifyLast_concat]
      exact List.append_ne_nil_of_right_ne_nil _ (List.cons_ne_nil _ _)
  · exact List.append_ne_nil_of_right_ne_nil _ (List.cons_ne_nil _ _)

theorem foldl_joinLine_append (done : List Bytes) (h : lines ≠ []) (more : List Bytes) :
    more.foldl joinLine (done ++ lines) = done ++ more.foldl joinLine lines := by
  induction more generalizing lines with
  | nil => rfl
  | cons cur more ih =>
    rw [List.foldl_cons, List.foldl_cons, joinLine_append done h, ih (joinLine_ne_nil lines cur)]

theorem endsInBackslash_append (h : endsInBackslash front = false) (line : Bytes) :
    endsInBackslash (front ++ line) = endsInBackslash line := by
  rw [endsInBackslash, endsInBackslash, List.reverse_append]
  by_cases hall : ∀ b ∈ line.reverse, (b = 13 || b = 10) = true
  · rw [List.dropWhile_append_of_pos hall, List.dropWhile_eq_nil_iff.2 hall]
    exact h
  · rw [List.dropWhile_append, if_neg]
    · have hne : line.reverse.dropWhile (fun b => b = 13 || b = 10) ≠ [] :=
        fun he => hall (List.dropWhile_eq_nil_iff.1 he)
      rw [List.head?_append_of_ne_nil _ hne]
    · rw [List.isEmpty_iff, List.dropWhile_eq_nil_iff]
      exact hall

theorem mem_of_endsInBackslash (h : endsInBackslash line = true) : (92 : UInt8) ∈ line := by
  have hhead := of_decide_eq_true h
  exact List.mem_reverse.1 ((List.dropWhile_sublist _).subset (List.mem_of_mem_head? hhead))

theorem lastBackslash_append (front : Bytes) (h : (92 : UInt8) ∈ line) :
    lastBackslash (front ++ line) = front.length + lastBackslash line := by
  have hlt := List.idxOf_lt_length_iff.2 (List.mem_reverse.2 h)
  rw [lastBackslash, lastBackslash, List.reverse_append,
    List.idxOf_append_of_mem (List.mem_reverse.2 h), List.length_append]
  rw [List.length_reverse] at hlt
  omega

theorem foldl_joinLine_front (h : endsInBackslash front = false) (line : Bytes)
    (more : List Bytes) : more.foldl joinLine [front ++ line] =
      appendHead front (more.foldl joinLine [line]) := by
  induction more generalizing line with
  | nil => rfl
  | cons cur more ih =>
    rw [List.foldl_cons, List.foldl_cons, joinLine_singleton, joinLine_singleton,
      endsInBackslash_append h]
    by_cases hback : endsInBackslash line = true
    · have hset : (front ++ line).set (lastBackslash (front ++ line)) 32 =
          front ++ line.set (lastBackslash line) 32 := by
        rw [lastBackslash_append front (mem_of_endsInBackslash hback),
          List.set_append_right _ _ (Nat.le_add_right _ _), Nat.add_sub_cancel_left]
      rw [if_pos hback, if_pos hback, hset, List.append_assoc, ih]
    · have hdone (l : Bytes) : more.foldl joinLine [l, cur] = l :: more.foldl joinLine [cur] :=
        foldl_joinLine_append [l] (List.cons_ne_nil cur []) more
      rw [if_neg hback, if_neg hback, hdone, hdone]
      rfl

def fixHead (st : JoinState) : List Bytes → List Bytes
  | [] => []
  | line :: lines => fixTab st line :: lines

theorem fixHead_text (lines : List Bytes) : fixHead .text lines = lines := by
  cases lines with
  | nil => rfl
  | cons line lines => rfl

theorem byteLines_split (h : rest ≠ []) : ∃ body, (∀ b ∈ body, b ≠ 10) ∧
    (rest = body ∧ byteLines rest = [body] ∨
      ∃ more, rest = body ++ 10 :: more ∧ byteLines rest = (body ++ [10]) :: byteLines more) := by
  induction rest with
  | nil => exact absurd rfl h
  | cons b rest ih =>
    by_cases hb : b = 10
    · subst hb
      exact ⟨[], fun _ h => absurd h List.not_mem_nil, .inr ⟨rest, rfl, by
        rw [byteLines, if_pos rfl]
        rfl⟩⟩
    · by_cases hrest : rest = []
      · subst hrest
        refine ⟨[b], fun c hc => List.mem_singleton.1 hc ▸ hb, .inl ⟨rfl, ?_⟩⟩
        rw [byteLines, if_neg hb]
        rfl
      · obtain ⟨body, hbody, hsplit⟩ := ih hrest
        refine ⟨b :: body, List.forall_mem_cons.2 ⟨hb, hbody⟩, ?_⟩
        rw [byteLines, if_neg hb]
        rcases hsplit with ⟨rfl, hlines⟩ | ⟨more, rfl, hlines⟩
        · rw [hlines]
          exact .inl ⟨rfl, rfl⟩
        · rw [hlines]
          exact .inr ⟨more, rfl, rfl⟩

/-- A text, up to the carriage returns at its end. -/
theorem crs_split (body : Bytes) : ∃ front crs, body = front ++ crs ∧ (∀ b ∈ crs, b = 13) ∧
    ∀ c, front.getLast? = some c → c ≠ 13 := by
  refine ⟨(body.reverse.dropWhile (· = 13)).reverse, (body.reverse.takeWhile (· = 13)).reverse,
    ?_, ?_, ?_⟩
  · rw [← List.reverse_append, List.takeWhile_append_dropWhile, List.reverse_reverse]
  · intro b hb
    have h13 := List.mem_takeWhile_imp (p := fun c : UInt8 => decide (c = 13))
      (List.mem_reverse.1 hb)
    exact of_decide_eq_true h13
  · intro c hc hcr
    rw [List.getLast?_reverse] at hc
    have hnot := List.head?_dropWhile_not (fun b : UInt8 => decide (b = 13)) body.reverse
    rw [hc] at hnot
    simp [hcr] at hnot

theorem endsInBackslash_concat (hcrs : ∀ b ∈ crs, b = 13) (front : Bytes) (hc : c ≠ 13)
    (hc10 : c ≠ 10) : endsInBackslash (front ++ c :: crs ++ [10]) = decide (c = 92) := by
  have hends : ∀ b ∈ 10 :: crs.reverse, (b = 13 || b = 10) = true := by
    intro b hb
    rcases List.mem_cons.1 hb with rfl | hb
    · rfl
    · rw [hcrs b (List.mem_reverse.1 hb)]
      rfl
  have hrev : (front ++ c :: crs ++ [10]).reverse = (10 :: crs.reverse) ++ c :: front.reverse := by
    simp
  rw [endsInBackslash, hrev, List.dropWhile_append_of_pos hends, List.dropWhile_cons_of_neg
    (by simp [hc, hc10]), List.head?_cons]
  simp only [Option.some.injEq]

/-- A line ends in a backslash, or no backslash of it continues it. -/
theorem backslash_split (hbody : ∀ b ∈ body, b ≠ 10) :
    (∃ front crs, body = front ++ 92 :: crs ∧ (∀ b ∈ crs, b = 13) ∧
        endsInBackslash (body ++ [10]) = true) ∨
      (endsInBackslash (body ++ [10]) = false ∧ ∀ more, Quiet body (10 :: more)) := by
  obtain ⟨front, crs, rfl, hcrs, hlast⟩ := crs_split body
  have hquiet {u v : Bytes} (h : (92 : UInt8) ∉ crs) (he : crs = u ++ 92 :: v) : False :=
    h (he ▸ List.mem_append_right _ List.mem_cons_self)
  have hno : (92 : UInt8) ∉ crs := fun h => absurd (hcrs 92 h) (by decide)
  rcases List.eq_nil_or_concat front with rfl | ⟨front, c, rfl⟩
  · refine .inr ⟨?_, fun more u v he => (hquiet hno he).elim⟩
    have hall : ∀ b ∈ ([] ++ crs ++ [10]).reverse, (b = 13 || b = 10) = true := by
      intro b hb
      rcases List.mem_append.1 (List.mem_reverse.1 hb) with hb | hb
      · rw [hcrs b hb]
        rfl
      · rw [List.mem_singleton.1 hb]
        rfl
    rw [endsInBackslash, List.dropWhile_eq_nil_iff.2 hall]
    rfl
  · rw [List.concat_eq_append] at hlast
    rw [List.concat_eq_append, List.append_assoc, List.singleton_append] at hbody ⊢
    have hc13 : c ≠ 13 := hlast c (by rw [List.getLast?_append]; rfl)
    have hc10 : c ≠ 10 := hbody c (List.mem_append_right _ List.mem_cons_self)
    have hends := endsInBackslash_concat hcrs front hc13 hc10
    by_cases hc : c = 92
    · subst hc
      exact .inl ⟨front, crs, rfl, hcrs, hends⟩
    · refine .inr ⟨hends.trans (decide_eq_false hc), fun more u v he => ?_⟩
      rcases List.append_eq_append_iff.1 he with ⟨a, rfl, ha⟩ | ⟨a, rfl, ha⟩
      · cases a with
        | nil => exact absurd (List.cons.inj ha).1 hc
        | cons d a => exact (hquiet hno (List.cons.inj ha).2).elim
      · cases a with
        | nil => exact absurd (List.cons.inj ha).1.symm hc
        | cons d a =>
          obtain ⟨-, rfl⟩ := List.cons.inj ha
          show continues (a ++ c :: crs ++ 10 :: more) = false
          rw [List.append_assoc]
          refine continues_body (fun b hb => hbody b ?_) hc10 hc13 _
          exact List.mem_append_left _ (List.mem_append_right _ (List.mem_cons_of_mem _ hb))

theorem appendHead_append (front next : List α) (lines : List (List α)) :
    appendHead (front ++ next) lines = appendHead front (appendHead next lines) := by
  cases lines with
  | nil => rfl
  | cons line lines =>
    rw [appendHead, appendHead, appendHead, List.append_assoc]

theorem fixTab_append (st : JoinState) (h : body ≠ [] ∨ rest.head? ≠ some 9) :
    fixTab st (body ++ rest) = fixTab st body ++ rest := by
  cases body with
  | nil =>
    rw [List.nil_append, fixTab, if_neg fun htab => h.elim (fun h => h rfl) fun h => h htab.2]
    rw [fixTab, if_neg fun htab => absurd htab.2 (by simp)]
    rfl
  | cons b body => rw [List.cons_append, fixTab_cons, fixTab_cons, List.cons_append]

theorem continues_eq_false (h : ∀ tail, rest.dropWhile (· = 13) = 10 :: tail → tail = []) :
    continues rest = false := by
  rw [continues]
  split
  · rename_i he
    cases h _ he
  · rfl

theorem quiet_last (hbody : ∀ b ∈ body, b ≠ 10) (hend : last = [] ∨ last = [10]) :
    Quiet body last := by
  intro u v he
  have hv : ∀ b ∈ v, b ≠ 10 := fun b hb =>
    hbody b (he ▸ List.mem_append_right _ (List.mem_cons_of_mem _ hb))
  refine continues_eq_false fun tail htail => ?_
  rw [List.dropWhile_append] at htail
  split at htail
  · rcases hend with rfl | rfl
    · cases htail
    · exact (List.cons.inj htail).2.symm
  · rename_i hne
    obtain ⟨c, w, hw⟩ := List.exists_cons_of_ne_nil (mt List.isEmpty_iff.2 hne)
    have hc : c ∈ v := (List.dropWhile_sublist _).subset (hw ▸ List.mem_cons_self)
    rw [hw] at htail
    exact absurd (List.cons.inj htail).1 (hv c hc)

theorem joinedLines_last {st : JoinState} (hst : st ≠ .continued) (hbody : ∀ b ∈ body, b ≠ 10)
    (hne : body ≠ []) : (joinedLines st body).map joinedText = [fixTab st body] := by
  have hbegin := joinedLines_begin hst hbody hne (quiet_last hbody (.inl rfl))
  rw [List.append_nil] at hbegin
  exact hbegin

/-- A line that none continues, with the file behind it. -/
theorem joinedLines_line {st : JoinState} (hst : st ≠ .continued) (hbody : ∀ b ∈ body, b ≠ 10)
    (hquiet : Quiet body (10 :: more)) : (joinedLines st (body ++ 10 :: more)).map joinedText =
      fixTab st (body ++ [10]) :: (joinedLines .text more).map joinedText := by
  by_cases hne : body = []
  · subst hne
    rw [List.nil_append, joinedLines_newline hst, List.nil_append, fixTab, if_neg]
    exact fun h => absurd (Option.some.inj h.2) (by decide)
  · rw [joinedLines_begin hst hbody hne hquiet, joinedLines_newline (by decide),
      fixTab_append st (.inl hne)]
    rfl

/-- A line that is continued, with the file behind it. -/
theorem joinedLines_joined {st : JoinState} (hst : st ≠ .continued)
    (hbody : ∀ b ∈ front, b ≠ 10) (hcrs : ∀ b ∈ crs, b = 13) (hmore : more ≠ []) :
    (joinedLines st (front ++ 92 :: (crs ++ 10 :: more))).map joinedText =
      appendHead (fixTab st front ++ 32 :: (crs ++ [10]))
        ((joinedLines .nextLine more).map joinedText) := by
  have hback (st : JoinState) : (joinedLines st (92 :: (crs ++ 10 :: more))).map joinedText =
      appendHead (32 :: (crs ++ [10])) ((joinedLines .nextLine more).map joinedText) := by
    rw [joinedLines, if_neg fun h => absurd h.1 (by decide), joinByte,
      if_pos ⟨rfl, continues_end hcrs hmore⟩, map_consLine, joinedLines_continued hcrs hmore,
      ← appendHead_consLine]
  by_cases hne : front = []
  · subst hne
    rw [List.nil_append, hback, fixTab, if_neg]
    · rfl
    · exact fun h => absurd h.2 (by simp)
  · have hquiet : Quiet front (92 :: (crs ++ 10 :: more)) := by
      intro u v he
      refine continues_body (fun b hb => hbody b (he ▸ ?_)) (by decide) (by decide) _
      exact List.mem_append_right _ (List.mem_cons_of_mem _ hb)
    rw [joinedLines_begin hst hbody hne hquiet, hback, ← appendHead_append]

theorem lastBackslash_set (hcrs : ∀ b ∈ crs, b = 13) (front : Bytes) :
    (front ++ 92 :: (crs ++ [10])).set (lastBackslash (front ++ 92 :: (crs ++ [10]))) 32 =
      front ++ 32 :: (crs ++ [10]) := by
  have hno : (92 : UInt8) ∉ crs ++ [10] := by
    intro h
    rcases List.mem_append.1 h with h | h
    · exact absurd (hcrs 92 h) (by decide)
    · exact absurd (List.mem_singleton.1 h) (by decide)
  have hlast : lastBackslash (92 :: (crs ++ [10])) = 0 := by
    rw [lastBackslash, List.reverse_cons, List.idxOf_append_of_notMem (by simpa using hno)]
    simp
  rw [lastBackslash_append front List.mem_cons_self, hlast, Nat.add_zero,
    List.set_append_right _ _ (Nat.le_refl _), Nat.sub_self]
  rfl

theorem endsInBackslash_fixTab (st : JoinState) (line : Bytes) :
    endsInBackslash (fixTab st line) = endsInBackslash line := by
  rw [fixTab]
  split
  · rename_i h
    cases line with
    | nil => rfl
    | cons b line =>
      obtain rfl := Option.some.inj h.2
      rw [List.set_cons_zero, endsInBackslash, endsInBackslash, List.reverse_cons, List.reverse_cons,
        List.dropWhile_append, List.dropWhile_append]
      split
      · rfl
      · rename_i hne
        obtain ⟨c, rest, he⟩ := List.exists_cons_of_ne_nil (mt List.isEmpty_iff.2 hne)
        rw [he]
        rfl
  · rfl

theorem foldl_joinLine {st : JoinState} (hst : st ≠ .continued) (data : Bytes) :
    (fixHead st (byteLines data)).foldl joinLine [] = (joinedLines st data).map joinedText := by
  induction hn : data.length using Nat.strong_induction_on generalizing data st with
  | _ n ih =>
    by_cases hne : data = []
    · subst hne
      rfl
    obtain ⟨body, hbody, ⟨rfl, hlines⟩ | ⟨more, rfl, hlines⟩⟩ := byteLines_split hne
    · rw [hlines, joinedLines_last hst hbody hne]
      rfl
    · have hless : more.length < n := by
        rw [← hn, List.length_append, List.length_cons]
        omega
      have hmore := ih _ hless (by decide : JoinState.text ≠ .continued) more rfl
      rw [fixHead_text] at hmore
      by_cases hend : more = []
      · subst hend
        rw [hlines, joinedLines_line hst hbody (quiet_last hbody (.inr rfl))]
        rfl
      obtain ⟨cur, lines, hcur⟩ : ∃ cur lines, byteLines more = cur :: lines := by
        obtain ⟨body, -, ⟨-, h⟩ | ⟨rest, -, h⟩⟩ := byteLines_split hend
        · exact ⟨_, _, h⟩
        · exact ⟨_, _, h⟩
      rcases backslash_split hbody with ⟨front, crs, rfl, hcrs, hback⟩ | ⟨hback, hquiet⟩
      · have hfront : ∀ b ∈ front, b ≠ 10 := fun b hb => hbody b (List.mem_append_left _ hb)
        have hnext := ih _ hless (by decide : JoinState.nextLine ≠ .continued) more rfl
        have hset : joinLine [fixTab st (front ++ 92 :: (crs ++ [10]))] cur =
            [fixTab st front ++ 32 :: (crs ++ [10]) ++ fixTab .nextLine cur] := by
          rw [List.append_assoc, List.cons_append] at hback
          rw [joinLine_singleton, endsInBackslash_fixTab, if_pos hback,
            fixTab_append st (.inr (by simp)), lastBackslash_set hcrs]
        have hpre : endsInBackslash (fixTab st front ++ 32 :: (crs ++ [10])) = false := by
          have h := endsInBackslash_concat hcrs (fixTab st front) (by decide : (32 : UInt8) ≠ 13)
            (by decide)
          rw [List.append_assoc] at h
          exact h
        rw [hcur] at hnext hlines
        rw [hlines, List.append_assoc, fixHead, List.append_assoc]
        show (fixTab st (front ++ 92 :: (crs ++ [10])) :: cur :: lines).foldl joinLine [] =
          (joinedLines st (front ++ 92 :: (crs ++ 10 :: more))).map joinedText
        rw [joinedLines_joined hst hfront hcrs hend, ← hnext, List.foldl_cons, List.foldl_cons]
        show lines.foldl joinLine (joinLine [fixTab st (front ++ 92 :: (crs ++ [10]))] cur) = _
        rw [hset, foldl_joinLine_front hpre]
        rfl
      · have hjoin : joinLine [fixTab st (body ++ [10])] cur = [fixTab st (body ++ [10]), cur] := by
          rw [joinLine_singleton, endsInBackslash_fixTab, hback]
          rfl
        rw [hcur] at hmore hlines
        rw [hlines, joinedLines_line hst hbody (hquiet more), ← hmore, fixHead, List.foldl_cons,
          List.foldl_cons]
        show lines.foldl joinLine (joinLine [fixTab st (body ++ [10])] cur) = _
        rw [hjoin]
        exact foldl_joinLine_append [fixTab st (body ++ [10])] (List.cons_ne_nil cur []) lines

theorem logicalLines_eq (data : Bytes) :
    logicalLines data = (joinedLines .text data).map joinedText := by
  rw [logicalLines, ← foldl_joinLine (by decide) data, fixHead_text]

end MakefileParser

end Cvise
