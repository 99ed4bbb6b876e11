import Cs345.Shell.Script
import Cs345.Shell.Splitting

namespace Shell

section Calls
variable {v : ArgVector}

def repaired (last : List Word) : List (List Word) → List (List Word)
  | [] => []
  | [] :: more => last :: more.map fun _ => last
  | (w :: ws) :: more => (w :: ws) :: repaired (w :: ws) more

theorem repaired_cons {seg : List Word} (hseg : seg ≠ []) (last : List Word)
    (more : List (List Word)) : repaired last (seg :: more) = seg :: repaired seg more := by
  cases seg with
  | nil => exact absurd rfl hseg
  | cons w ws => rfl

theorem repaired_full {segs : List (List Word)} (h : ∀ seg ∈ segs, seg ≠ []) (last : List Word) :
    repaired last segs = segs := by
  induction segs generalizing last with
  | nil => rfl
  | cons seg more ih =>
    obtain ⟨hseg, hmore⟩ := List.forall_mem_cons.mp h
    rw [repaired_cons hseg, ih hmore]

theorem mem_repaired {segs : List (List Word)} {st : List Word} :
    ∀ {last : List Word}, st ∈ repaired last segs → st = last ∨ st ∈ segs ∧ st ≠ [] := by
  induction segs with
  | nil => exact fun h => absurd h List.not_mem_nil
  | cons seg more ih =>
    intro last h
    by_cases hseg : seg = []
    · subst hseg
      have hall : ∀ x ∈ repaired last ([] :: more), x = last := by simp [repaired]
      exact .inl (hall st h)
    · rw [repaired_cons hseg] at h
      rcases List.mem_cons.mp h with rfl | h
      · exact .inr ⟨List.mem_cons_self, hseg⟩
      · rcases ih h with rfl | ⟨hmem, hne⟩
        · exact .inr ⟨List.mem_cons_self, hseg⟩
        · exact .inr ⟨List.mem_cons_of_mem _ hmem, hne⟩

theorem length_repaired (segs : List (List Word)) :
    ∀ last, (repaired last segs).length = segs.length := by
  induction segs with
  | nil => exact fun _ => rfl
  | cons seg more ih =>
    intro last
    cases seg with
    | nil => simp [repaired]
    | cons w ws => simp [repaired, ih]

theorem calls_deliver (segs : List (List Word)) : ∀ (c : ℕ) (t : Args), c ≤ v.numArgs →
    (wordsAt v.args c).splitOn bar = segs →
    ∃ calls, nextArgs v.args segs.length t c = some calls ∧
      calls.map (fun call => words call.tempArgs) = repaired (words t) segs := by
  induction segs with
  | nil => exact fun c t _ h => absurd h (List.splitOn_ne_nil bar _)
  | cons seg more ih =>
    intro c t hc h
    by_cases hseg : seg = []
    · subst hseg
      refine ⟨_, nextArgs_stuck (nextArg_empty hc h) _, ?_⟩
      simp [repaired, List.replicate_succ, List.map_const']
    · obtain ⟨t', hnext, rfl, hgo⟩ := nextArg_spec t hc h hseg
      rw [repaired_cons hseg]
      cases more with
      | nil => exact ⟨[⟨t', nextArgReads v.args c⟩], by simp [nextArgs, hnext], rfl⟩
      | cons seg' more =>
        obtain ⟨hc', hsplit⟩ := hgo (List.cons_ne_nil _ _)
        obtain ⟨calls, hcalls, hmap⟩ := ih _ t' hc' hsplit
        refine ⟨⟨t', nextArgReads v.args c⟩ :: calls, ?_, ?_⟩
        · simp only [List.length_cons, nextArgs, hnext, Option.bind_some] at hcalls ⊢
          rw [hcalls]
          rfl
        · rw [List.map_cons, hmap]

end Calls

section Syntax

structure Plain (w : Word) : Prop where
  nonempty : w ≠ []
  clean : ∀ c ∈ w, isDelim c = false ∧ c ≠ '\x00'
  unflagged : isFlag w = false
  unpiped : w ≠ bar

@[ext] structure Command where
  stages : List (List Word)
  background : Bool
  timed : Bool
  nonempty : stages ≠ []
  filled : ∀ st ∈ stages, st ≠ []
  plain : ∀ st ∈ stages, ∀ w ∈ st, Plain w

def Line.timed (l : Line) : Bool := (Fields.nonempty isDelim l.text).any (· = mytime)

def Line.segments (l : Line) : List (List Word) := l.words.splitOn bar

def Line.Begins (l : Line) : Prop := ∃ w ∈ l.words.head?, w ≠ bar

variable {l : Line} {w : Word}

theorem isDelim_newline : isDelim '\n' = true := by decide

theorem Line.not_null {c : Char} (hc : c ∈ l.text) : c ≠ '\x00' := by
  rcases List.mem_append.mp hc with hc | hc
  · exact (l.clean c hc).2
  · rw [List.mem_singleton.mp hc]
    decide

theorem Line.plain_of_mem (hw : w ∈ l.words) (hbar : w ≠ bar) : Plain w := by
  obtain ⟨hfield, hflag⟩ := List.mem_filter.mp hw
  obtain ⟨hsplit, hne⟩ := List.mem_filter.mp hfield
  refine ⟨by simpa using hne, fun c hc => ?_, by simpa using hflag, hbar⟩
  obtain ⟨hmem, hdelim⟩ := Fields.mem_of_mem_splitOnP hsplit hc
  exact ⟨hdelim, Line.not_null hmem⟩

theorem Line.Begins.segments (h : l.Begins) : ∃ seg more, l.segments = seg :: more ∧ seg ≠ [] := by
  obtain ⟨w, hw, hbar⟩ := h
  cases hl : l.words with
  | nil => simp [hl] at hw
  | cons u ws =>
    obtain rfl : u = w := by simpa [hl] using hw
    rcases Fields.splitOn_cases bar (u :: ws) with ⟨hone, -⟩ | ⟨rest, -, hcut⟩
    · exact ⟨_, [], by rw [Line.segments, hl, hone], List.cons_ne_nil u ws⟩
    · refine ⟨_, _, by rw [Line.segments, hl, hcut], ?_⟩
      simp [hbar]

theorem Line.segments_of_not_begins (h : ¬ l.Begins) : ∃ more, l.segments = [] :: more := by
  cases hl : l.words with
  | nil => exact ⟨[], by rw [Line.segments, hl]; rfl⟩
  | cons u ws =>
    have hu : u = bar := by
      by_contra hne
      exact h ⟨u, by simp [hl], hne⟩
    refine ⟨ws.splitOn bar, ?_⟩
    rw [Line.segments, hl, hu, List.splitOn, List.splitOnP_cons_eq_if_modifyHead,
      if_pos (beq_self_eq_true bar)]
    rfl

def Line.command (l : Line) (h : l.Begins) : Command where
  stages := repaired [] l.segments
  background := l.background
  timed := l.timed
  nonempty := by
    obtain ⟨seg, more, heq, hseg⟩ := h.segments
    rw [heq, repaired_cons hseg]
    exact List.cons_ne_nil _ _
  filled st hst := by
    obtain ⟨seg, more, heq, hseg⟩ := h.segments
    rw [heq, repaired_cons hseg] at hst
    rcases List.mem_cons.mp hst with rfl | hst
    · exact hseg
    · rcases mem_repaired hst with rfl | ⟨-, hne⟩
      · exact hseg
      · exact hne
  plain st hst w hw := by
    rcases mem_repaired hst with rfl | ⟨hmem, -⟩
    · exact absurd hw List.not_mem_nil
    · obtain ⟨hword, hbar⟩ := Fields.mem_of_mem_splitOnP hmem hw
      exact Line.plain_of_mem hword (by simpa using hbar)

end Syntax

section Reading
variable {l : Line} {c : Command} {p : Parsed}

structure Parsed.Means (p : Parsed) (c : Command) : Prop where
  timed : p.timeFlag = c.timed
  background : p.ampershandFlag = c.background
  stages : ∀ tempArgs, ∃ calls,
    nextArgs p.args ((searchForPipe p.args false 0).2 + 1) tempArgs 0 = some calls ∧
      calls.map (fun call => words call.tempArgs) = c.stages

def Reads (l : Line) (c : Command) : Prop :=
  ∀ args, ∃ p, parseArguments l.text args false false = some p ∧ p.Means c

theorem means_iff {args : Args} (hp : parseArguments l.text args false false = some p)
    (hdelims : delims l.text + 1 < SIZE) :
    p.Means c ↔ l.timed = c.timed ∧ l.background = c.background ∧
      ∀ t : Args, repaired (words t) l.segments = c.stages := by
  obtain ⟨q, hq, hkept⟩ := parseArguments_short hdelims args
  obtain rfl := Option.some.inj (hp.symm.trans hq)
  have htokens := tokenized_of_kept hkept
  have hread := htokens.understood (Parsed.vector hp).lt_size
  have htimed : p.timeFlag = l.timed := by
    rw [Bool.eq_iff_iff, htokens.timeFlag]
    simp [Line.timed]
  have hsegments : (Parsed.vector hp).stages = l.segments :=
    congrArg (List.splitOn bar) hread.words
  have hcalls (t : Args) : ∃ calls,
      nextArgs p.args ((searchForPipe p.args false 0).2 + 1) t 0 = some calls ∧
        calls.map (fun call => words call.tempArgs) = repaired (words t) l.segments := by
    obtain ⟨calls, hcalls, hmap⟩ :=
      calls_deliver (v := Parsed.vector hp) _ 0 t (Nat.zero_le _) hsegments
    rw [← hsegments, ArgVector.length_stages] at hcalls
    exact ⟨calls, hcalls, hmap⟩
  constructor
  · rintro ⟨ht, hb, hst⟩
    refine ⟨htimed ▸ ht, hread.ampershandFlag ▸ hb, fun t => ?_⟩
    obtain ⟨calls, hgo, hmap⟩ := hcalls t
    obtain ⟨calls', hgo', hmap'⟩ := hst t
    obtain rfl := Option.some.inj (hgo.symm.trans hgo')
    exact hmap.symm.trans hmap'
  · rintro ⟨ht, hb, hst⟩
    refine ⟨htimed.trans ht, hread.ampershandFlag.trans hb, fun t => ?_⟩
    obtain ⟨calls, hgo, hmap⟩ := hcalls t
    exact ⟨calls, hgo, hmap.trans (hst t)⟩

theorem Line.Begins.delims (h : l.Begins) (hlen : l.text.length < SIZE) :
    delims l.text + 1 < SIZE := by
  obtain ⟨w, hw, hbar⟩ := h
  have hplain := Line.plain_of_mem (List.mem_of_mem_head? hw) hbar
  have hword : ∃ c ∈ l.text, c ∉ DELIMS := by
    obtain ⟨hfield, -⟩ := List.mem_filter.mp (List.mem_of_mem_head? hw)
    obtain ⟨c, hc⟩ := List.exists_mem_of_ne_nil w hplain.nonempty
    obtain ⟨hmem, hdelim⟩ := Fields.mem_of_mem_splitOnP (List.mem_filter.mp hfield).1 hc
    exact ⟨c, hmem, by simpa [isDelim] using hdelim⟩
  have := delims_lt hword
  omega

theorem Reads.command (h : Reads l c) : ∃ hbegins : l.Begins, l.command hbegins = c := by
  obtain ⟨p, hp, hmeans⟩ := h fun _ => none
  have hdelims : delims l.text + 1 < SIZE := parses_iff.mp (Option.isSome_of_eq_some hp)
  obtain ⟨ht, hb, hst⟩ := (means_iff hp hdelims).mp hmeans
  have hempty := hst fun _ => none
  have hnil : words (fun _ => none) = [] := wordsAt_none rfl
  rw [hnil] at hempty
  by_cases hbegins : l.Begins
  · exact ⟨hbegins, Command.ext hempty hb ht⟩
  · obtain ⟨more, hseg⟩ := Line.segments_of_not_begins hbegins
    rw [hseg] at hempty
    exact absurd rfl (c.filled [] (hempty ▸ List.mem_cons_self))

theorem Line.Begins.reads (h : l.Begins) (hlen : l.text.length < SIZE) : Reads l (l.command h) := by
  intro args
  have hdelims := h.delims hlen
  obtain ⟨p, hp, -⟩ := parseArguments_short hdelims args
  refine ⟨p, hp, (means_iff hp hdelims).mpr ⟨rfl, rfl, fun t => ?_⟩⟩
  obtain ⟨seg, more, heq, hseg⟩ := h.segments
  change repaired (Shell.words t) l.segments = repaired [] l.segments
  rw [heq, repaired_cons hseg, repaired_cons hseg]

theorem reads_iff (hlen : l.text.length < SIZE) (c : Command) :
    Reads l c ↔ ∃ h : l.Begins, l.command h = c := by
  constructor
  · exact fun h => h.command
  · rintro ⟨h, rfl⟩
    exact h.reads hlen

end Reading

section Canonical
variable {l : Line} {c : Command}

def Command.words (c : Command) : List Word := [bar].intercalate c.stages

def Command.tokens (c : Command) : List Word :=
  (if c.timed then [mytime] else []) ++ (c.words ++ if c.background then [ampersand] else [])

theorem Command.mem_words {w : Word} (hw : w ∈ c.words) : w = bar ∨ Plain w := by
  rcases Fields.mem_of_mem_intercalate hw with rfl | ⟨st, hst, hmem⟩
  · exact .inl rfl
  · exact .inr (c.plain st hst w hmem)

theorem Command.word_clean {w : Word} (hw : w ∈ c.words) :
    w ≠ [] ∧ (∀ x ∈ w, isDelim x = false ∧ x ≠ '\x00') ∧ isFlag w = false := by
  rcases c.mem_words hw with rfl | h
  · simp [bar, isDelim, DELIMS, isFlag, mytime, ampersand]
  · exact ⟨h.nonempty, h.clean, h.unflagged⟩

theorem Command.mem_tokens {w : Word} (hw : w ∈ c.tokens) :
    w = mytime ∨ w = ampersand ∨ w ∈ c.words := by
  simp only [Command.tokens, List.mem_append] at hw
  rcases hw with hw | hw | hw
  · split_ifs at hw
    · exact .inl (List.mem_singleton.mp hw)
    · exact absurd hw List.not_mem_nil
  · exact .inr (.inr hw)
  · split_ifs at hw
    · exact .inr (.inl (List.mem_singleton.mp hw))
    · exact absurd hw List.not_mem_nil

theorem Command.token_clean {w : Word} (hw : w ∈ c.tokens) :
    w ≠ [] ∧ ∀ x ∈ w, isDelim x = false ∧ x ≠ '\x00' := by
  rcases c.mem_tokens hw with rfl | rfl | hw
  · simp [mytime, isDelim, DELIMS]
  · simp [ampersand, isDelim, DELIMS]
  · obtain ⟨hne, hclean, -⟩ := c.word_clean hw
    exact ⟨hne, hclean⟩

def Command.line (c : Command) : Line where
  body := [' '].intercalate c.tokens
  clean x hx := by
    rcases Fields.mem_of_mem_intercalate hx with rfl | ⟨w, hw, hx⟩
    · decide
    · obtain ⟨hdelim, hnull⟩ := (c.token_clean hw).2 x hx
      refine ⟨?_, hnull⟩
      rintro rfl
      rw [isDelim_newline] at hdelim
      cases hdelim

theorem Command.line_fields (c : Command) : Fields.nonempty isDelim c.line.text = c.tokens :=
  Fields.nonempty_intercalate (by decide) isDelim_newline (fun _ hw => (c.token_clean hw).1)
    fun _ hw x hx => ((c.token_clean hw).2 x hx).1

theorem Command.line_words (c : Command) : c.line.words = c.words := by
  have hall : c.words.filter (!isFlag ·) = c.words :=
    List.filter_eq_self.mpr fun w hw => by simp [(c.word_clean hw).2.2]
  rw [Line.words, c.line_fields, Command.tokens, List.filter_append, List.filter_append, hall]
  cases c.timed <;> cases c.background <;> simp [isFlag]

theorem Command.not_mem_words {w : Word} (hw : isFlag w = true) : w ∉ c.words := by
  intro hmem
  rw [(c.word_clean hmem).2.2] at hw
  cases hw

theorem Command.line_timed (c : Command) : c.line.timed = c.timed := by
  have hno : ∀ w ∈ c.words, w ≠ mytime := fun w hw heq =>
    c.not_mem_words (w := mytime) (by decide) (heq ▸ hw)
  have hne : ampersand ≠ mytime := by decide
  rw [Line.timed, c.line_fields, Command.tokens]
  cases c.timed with
  | true => rfl
  | false => cases c.background <;> simpa [hne] using hno

theorem Command.line_background (c : Command) : c.line.background = c.background := by
  have hno : ampersand ∉ c.words := c.not_mem_words (by decide)
  have hne : ampersand ≠ mytime := by decide
  rw [Line.background, c.line_fields, Command.tokens]
  cases c.timed <;> cases c.background <;> simp [hno, hne]

theorem Command.line_segments (c : Command) : c.line.segments = c.stages := by
  rw [Line.segments, c.line_words, Command.words]
  exact List.splitOn_intercalate bar (fun st hst hbar => (c.plain st hst bar hbar).unpiped rfl)
    c.nonempty

theorem Command.line_begins (c : Command) : c.line.Begins := by
  by_contra h
  obtain ⟨more, heq⟩ := Line.segments_of_not_begins h
  rw [c.line_segments] at heq
  exact c.filled [] (heq ▸ List.mem_cons_self) rfl

theorem Command.line_command (c : Command) : c.line.command c.line_begins = c := by
  refine Command.ext ?_ c.line_background c.line_timed
  change repaired [] c.line.segments = c.stages
  rw [c.line_segments, repaired_full c.filled]

end Canonical

section Length
open Fields (extent)
variable {l : Line} {c : Command}

theorem extent_eq (ws : List Word) : extent ws =
    extent (ws.filter (!isFlag ·)) + 7 * ws.count mytime + 2 * ws.count ampersand := by
  induction ws with
  | nil => rfl
  | cons w ws ih =>
    rw [extent, ih]
    by_cases htime : w = mytime
    · subst htime
      have hne : mytime ≠ ampersand := by decide
      rw [List.filter_cons_of_neg (by decide), List.count_cons_self, List.count_cons_of_ne hne]
      have : mytime.length = 6 := rfl
      omega
    · by_cases hamp : w = ampersand
      · subst hamp
        have hne : ampersand ≠ mytime := by decide
        rw [List.filter_cons_of_neg (by decide), List.count_cons_self, List.count_cons_of_ne hne]
        have : ampersand.length = 1 := rfl
        omega
      · rw [List.filter_cons_of_pos (by simp [isFlag, htime, hamp]), List.count_cons_of_ne htime,
          List.count_cons_of_ne hamp, extent]
        omega

theorem extent_fields_le (l : Line) :
    extent (Fields.nonempty isDelim l.text) ≤ l.text.length := by
  have hend : ∀ a ∈ l.text.getLast?, isDelim a = true := by
    intro a ha
    obtain rfl : '\n' = a := by simpa [Line.text, newline] using ha
    exact isDelim_newline
  exact (Nat.le_add_right _ _).trans ((Fields.runs_nonempty isDelim l.text).extent_le hend)

theorem Command.tokens_ne_nil (c : Command) : c.tokens ≠ [] := by
  intro h
  have hwords := c.line_words
  rw [Line.words, c.line_fields, h] at hwords
  have hseg := c.line_segments
  rw [Line.segments, c.line_words, ← hwords] at hseg
  exact c.filled [] (hseg ▸ List.mem_singleton_self []) rfl

theorem Command.length_line (c : Command) : c.line.text.length = extent c.tokens := by
  have hpos : 1 ≤ extent c.tokens := by
    obtain ⟨w, ws, hw⟩ := List.exists_cons_of_ne_nil c.tokens_ne_nil
    rw [hw, extent]
    omega
  rw [Line.length_text]
  exact (Fields.length_intercalate ' ' c.tokens).trans (Nat.max_eq_right hpos)

theorem Command.extent_tokens (c : Command) : extent c.tokens =
    extent c.words + (if c.timed then 7 else 0) + if c.background then 2 else 0 := by
  have htime : extent [mytime] = 7 := rfl
  have hamp : extent [ampersand] = 2 := rfl
  have hnil : extent ([] : List Word) = 0 := rfl
  rw [Command.tokens, Fields.extent_append, Fields.extent_append]
  cases c.timed <;> cases c.background <;> simp [htime, hamp, hnil] <;> omega

theorem length_canonical_le (hfull : ∀ st ∈ l.segments, st ≠ []) (h : l.Begins) :
    (l.command h).line.text.length ≤ l.text.length := by
  have hwords : (l.command h).words = l.words := by
    rw [Command.words]
    change [bar].intercalate (repaired [] l.segments) = l.words
    rw [repaired_full hfull]
    exact List.intercalate_splitOn bar
  have htime : l.timed = true → 0 < (Fields.nonempty isDelim l.text).count mytime := fun ht =>
    List.count_pos_iff.mpr (by simpa [Line.timed] using ht)
  have hamp : l.background = true → 0 < (Fields.nonempty isDelim l.text).count ampersand :=
    fun hb => List.count_pos_iff.mpr (by simpa [Line.background] using hb)
  have hfields := extent_fields_le l
  rw [extent_eq] at hfields
  rw [Command.length_line, Command.extent_tokens, hwords]
  change extent l.words + (if l.timed then 7 else 0) + (if l.background then 2 else 0) ≤ _
  change extent l.words + _ + _ ≤ _ at hfields
  split_ifs with ht hb hb
  · have := htime ht
    have := hamp hb
    omega
  · have := htime ht
    omega
  · have := hamp hb
    omega
  · omega

theorem Command.reads_line (c : Command) (hfit : c.line.text.length < SIZE) : Reads c.line c := by
  have hreads := c.line_begins.reads hfit
  rwa [c.line_command] at hreads

theorem round_trip (c : Command) :
    (c.line.text.length < SIZE → Reads c.line c) ∧
    ∀ l : Line, l.text.length < SIZE → (∀ st ∈ l.segments, st ≠ []) → Reads l c →
      c.line.text.length ≤ l.text.length ∧ Reads c.line c := by
  refine ⟨c.reads_line, fun l hlen hfull h => ?_⟩
  obtain ⟨hbegins, rfl⟩ := h.command
  have hle := length_canonical_le hfull hbegins
  exact ⟨hle, Command.reads_line _ (hle.trans_lt hlen)⟩

end Length

section Sample

def gapLine : Line := lineOf ['l', 's', ' ', '|', ' ', '|', ' ', 'w', 'c'] rfl

theorem gap_begins : gapLine.Begins := ⟨['l', 's'], by decide, by decide⟩

def gapCommand : Command := gapLine.command gap_begins

theorem gap_stages : gapCommand.stages = [[['l', 's']], [['l', 's']], [['l', 's']]] := by
  change repaired [] gapLine.segments = _
  decide

theorem gap_read : Reads gapLine gapCommand ∧
    gapCommand.stages = [[['l', 's']], [['l', 's']], [['l', 's']]] :=
  ⟨(reads_iff (by decide) _).mpr ⟨gap_begins, rfl⟩, gap_stages⟩

def timedPipe : Command where
  stages := [[['l', 's']], [['w', 'c']]]
  background := false
  timed := true
  nonempty := List.cons_ne_nil _ _
  filled := by decide
  plain st hst w hw := by
    have hword : w = ['l', 's'] ∨ w = ['w', 'c'] := by
      rcases List.mem_pair.mp hst with rfl | rfl
      · exact .inl (List.mem_singleton.mp hw)
      · exact .inr (List.mem_singleton.mp hw)
    rcases hword with rfl | rfl
    · exact ⟨by decide, by simp [isDelim, DELIMS], by decide, by decide⟩
    · exact ⟨by decide, by simp [isDelim, DELIMS], by decide, by decide⟩

theorem timed_pipe_read : Reads timedPipe.line timedPipe :=
  (round_trip timedPipe).1 (by decide)

end Sample

end Shell
