import Cs345.Guess.Progress

namespace Guess

section Final
variable {P : Session} {s : State} {k : ℕ}

theorem covered_of_lt (hk : k < P.M * (P.N / P.M)) : ∃ i < P.M, P.low i ≤ k ∧ k < P.high i := by
  have hpos : 0 < P.N / P.M := Nat.pos_of_lt_mul_left hk
  refine ⟨k / (P.N / P.M), ?_, Nat.div_mul_le_self _ _, ?_⟩
  · rwa [Nat.div_lt_iff_lt_mul hpos]
  · rw [Session.high, Nat.succ_mul]
    exact Nat.lt_div_mul_add hpos

theorem uncovered_of_le (hk : P.M * (P.N / P.M) ≤ k) : Uncovered P k := by
  rintro i hi ⟨-, hh⟩
  have hle : P.high i ≤ P.M * (P.N / P.M) := Nat.mul_le_mul_right _ hi
  omega

theorem final_guess (hs : (protocol P).Reachable s) (hg : s.guessed = true) :
    s.shm1 k = if k < P.M * (P.N / P.M) then P.secretString k else 48 := by
  split_ifs with hk
  · obtain ⟨i, hi, hl, hh⟩ := covered_of_lt hk
    have hexit := (joined_reachable hs).clients hg i hi
    exact ((phase_reachable hs i hi).left hi (by omega) (.inr hexit)).2 k hl hh
  · exact (untouched hs (uncovered_of_le (Nat.not_lt.mp hk))).1

theorem final_answer (hs : (protocol P).Reachable s) (hr : s.reported = true) :
    s.shm2 k = if k < P.M * (P.N / P.M) then 1 else 0 := by
  split_ifs with hk
  · obtain ⟨i, hi, hl, hh⟩ := covered_of_lt hk
    exact exited_answers (phase_reachable hs i hi) ((joined_reachable hs).servers hr i hi) hl hh
  · exact (untouched hs (uncovered_of_le (Nat.not_lt.mp hk))).2

theorem final_rounds (hs : (protocol P).Reachable s) (hr : s.reported = true)
    (hle : P.M ≤ P.N) {i : ℕ} (hi : i < P.M) : s.rounds i = lastRound P i :=
  ((phase_reachable hs i hi).left hi (P.low_lt_high_iff.mpr hle)
    (.inl ((joined_reachable hs).servers hr i hi))).1

end Final

section Printed
variable {xs ys : List ℕ} {c : ℕ}

-- what "%s" prints of memory: all up to the first NUL, and nothing when the memory ends before
def cstring : List ℕ → Option (List ℕ)
  | [] => none
  | c :: rest => if c = 0 then some [] else (cstring rest).map (c :: ·)

def text (shm1 : ℕ → ℕ) (n : ℕ) (behind : List ℕ) : Option (List ℕ) :=
  cstring ((List.range n).map shm1 ++ behind)

theorem cstring_append (hxs : ∀ c ∈ xs, c ≠ 0) (ys : List ℕ) :
    cstring (xs ++ ys) = (cstring ys).map (xs ++ ·) := by
  induction xs with
  | nil =>
    change _ = (cstring ys).map id
    rw [Option.map_id_fun, id]
    rfl
  | cons c xs ih =>
    obtain ⟨hc, hrest⟩ := List.forall_mem_cons.mp hxs
    rw [List.cons_append, cstring, if_neg hc, ih hrest, Option.map_map]
    rfl

theorem cstring_ends : cstring ys = some [] ↔ ys.head? = some 0 := by
  cases ys with
  | nil => simp [cstring]
  | cons c ys => simp [cstring]

def Session.guess (P : Session) : List ℕ :=
  (List.range (P.M * (P.N / P.M))).map P.secretString ++ List.replicate (P.N % P.M) 48

def Session.answer (P : Session) : List ℕ :=
  List.replicate (P.M * (P.N / P.M)) 1 ++ List.replicate (P.N % P.M) 0

theorem guess_printable (P : Session) : ∀ c ∈ P.guess, c ≠ 0 := by
  intro c hc
  rcases List.mem_append.mp hc with hc | hc
  · obtain ⟨k, hk, rfl⟩ := List.mem_map.mp hc
    have hlt := (List.mem_range.mp hk).trans_le (Nat.mul_div_le P.N P.M)
    have := Game.letter_bounds (P.letters k hlt)
    omega
  · rw [List.eq_of_mem_replicate hc]
    decide

theorem map_split {f g : ℕ → ℕ} {c m n : ℕ} (hmn : m ≤ n)
    (h : ∀ k < n, f k = if k < m then g k else c) :
    (List.range n).map f = (List.range m).map g ++ List.replicate (n - m) c := by
  refine List.ext_getElem (by simp; omega) fun k hk _ => ?_
  rw [List.length_map, List.length_range] at hk
  rw [List.getElem_map, List.getElem_range, h k hk]
  split_ifs with hkm
  · rw [List.getElem_append_left (by simpa using hkm), List.getElem_map, List.getElem_range]
  · rw [List.getElem_append_right (by simpa using hkm), List.getElem_replicate]

theorem sub_mul_div (P : Session) : P.N - P.M * (P.N / P.M) = P.N % P.M := by
  have := Nat.mod_add_div P.N P.M
  omega

variable {sessions : ℕ → Session} {s : System} {k : ℕ}

theorem guessed_bytes (hs : (system sessions).Reachable s) (hk : s.Accepted k)
    (hg : (s.mem k).guessed = true) :
    (List.range (sessions k).N).map (s.mem k).shm1 = (sessions k).guess := by
  have hreach := session_follows_protocol hs hk
  rw [Session.guess, ← sub_mul_div]
  exact map_split (Nat.mul_div_le _ _) fun j _ => final_guess hreach hg

theorem reported_bytes (hs : (system sessions).Reachable s) (hk : s.Accepted k)
    (hr : (s.mem k).reported = true) :
    (List.range (sessions k).N).map (s.mem k).shm2 = (sessions k).answer := by
  have hreach := session_follows_protocol hs hk
  have hones : List.replicate ((sessions k).M * ((sessions k).N / (sessions k).M)) 1 =
      (List.range ((sessions k).M * ((sessions k).N / (sessions k).M))).map fun _ => 1 := by simp
  rw [Session.answer, ← sub_mul_div, hones]
  exact map_split (Nat.mul_div_le _ _) fun j _ => final_answer hreach hr

theorem guessed_text (hs : (system sessions).Reachable s) (hk : s.Accepted k)
    (hg : (s.mem k).guessed = true) (behind : List ℕ) :
    text (s.mem k).shm1 (sessions k).N behind =
      (cstring behind).map ((sessions k).guess ++ ·) := by
  rw [text, guessed_bytes hs hk hg, cstring_append (guess_printable _)]

theorem session_outcome (hs : (system sessions).Reachable s) (hk : s.Accepted k) :
    ((s.mem k).guessed = true → ∀ behind,
      text (s.mem k).shm1 (sessions k).N behind =
        (cstring behind).map ((sessions k).guess ++ ·) ∧
      (text (s.mem k).shm1 (sessions k).N behind = some (sessions k).guess ↔
        behind.head? = some 0)) ∧
    ((s.mem k).reported = true →
      (List.range (sessions k).N).map (s.mem k).shm2 = (sessions k).answer) ∧
    ((s.mem k).reported = true → (sessions k).M ≤ (sessions k).N → ∀ i < (sessions k).M,
      (s.mem k).rounds i = lastRound (sessions k) i) := by
  have hreach := session_follows_protocol hs hk
  refine ⟨fun hg behind => ?_, reported_bytes hs hk, fun hr hMN i hi => final_rounds hreach hr hMN hi⟩
  have htext := guessed_text hs hk hg behind
  refine ⟨htext, ?_⟩
  rw [htext, ← cstring_ends, Option.map_eq_some_iff]
  constructor
  · rintro ⟨rest, hrest, happend⟩
    rw [hrest, List.append_right_eq_self.mp happend]
  · exact fun hends => ⟨[], hends, List.append_nil _⟩

theorem sample_outcome : ∃ s, (system fun _ => sample).Reachable s ∧
    text (s.mem 0).shm1 4 [0] = some [65, 98, 67, 122] ∧
    text (s.mem 0).shm1 4 [88, 89, 0] = some [65, 98, 67, 122, 88, 89] := by
  obtain ⟨s, hs, hk, -⟩ := sample_attached
  obtain ⟨t, ht, hatt, hg, -⟩ := session_completes hs hk (by decide)
  have hreach := hs.of_started ht
  have hacc := (follows_reachable hreach).attached 0 hatt
  have hprinted := (session_outcome hreach hacc).1 hg
  exact ⟨t, hreach, (hprinted [0]).1.trans (by decide), (hprinted [88, 89, 0]).1.trans (by decide)⟩

end Printed
end Guess
