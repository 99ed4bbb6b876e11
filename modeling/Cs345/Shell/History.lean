import Cs345.Ring
import Cs345.Shell.Args

namespace Shell

def newline : Word := ['\n']

abbrev History := Ring.Store Word

def blankHistory : History := .empty []

def record (h : History) (command : Word) : History :=
  if command = newline then h else Ring.push SIZE h command

def listHistory (commandHistory : ℕ → Word) : ℕ → ℕ → List (ℕ × Word)
  | 0, _ => []
  | n + 1, i =>
    if commandHistory i ≠ [] then
      (i + 1, commandHistory i) :: listHistory commandHistory n (i + 1)
    else []

def printHistory (commandHistory : ℕ → Word) : List (ℕ × Word) := listHistory commandHistory SIZE 0

def spawnProcHistory (commandHistory : ℕ → Word) : List (ℕ × Word) :=
  listHistory commandHistory SIZE 0

def ListsRecent (h : History) (lines : List Word) : Prop :=
  (printHistory h.slots).map Prod.snd = Ring.recent SIZE lines ∧
    (spawnProcHistory h.slots).map Prod.snd = Ring.recent SIZE lines

section Listing
variable {h : History} {lines : List Word}

theorem foldl_record (lines : List Word) (h : History) :
    lines.foldl record h = (lines.filter (· ≠ newline)).foldl (Ring.push SIZE) h := by
  induction lines generalizing h with
  | nil => rfl
  | cons l lines ih =>
    rw [List.foldl_cons, ih]
    by_cases hl : l = newline <;> simp [record, hl]

theorem recorded_holds (lines : List Word) :
    Ring.Holds SIZE [] (lines.filter (· ≠ newline)) (lines.foldl record blankHistory) := by
  rw [foldl_record]
  exact (Ring.holds_empty SIZE []).pushes _

theorem listHistory_eq {commandHistory : ℕ → Word} {n m i : ℕ} (hm : m ≤ n)
    (hfull : ∀ j < m, commandHistory (i + j) ≠ [])
    (hend : m < n → commandHistory (i + m) = []) :
    (listHistory commandHistory n i).map Prod.snd =
      (List.range m).map fun j => commandHistory (i + j) := by
  induction n generalizing i m with
  | zero =>
    obtain rfl : m = 0 := by omega
    rfl
  | succ n ih =>
    cases m with
    | zero =>
      have hstop : commandHistory i = [] := hend (Nat.succ_pos n)
      simp [listHistory, hstop]
    | succ m =>
      have hshift (j : ℕ) : i + (j + 1) = i + 1 + j := by omega
      have htail := ih (m := m) (i := i + 1) (by omega)
        (fun j hj => hshift j ▸ hfull (j + 1) (by omega))
        (fun hlt => hshift m ▸ hend (by omega))
      have hfirst : commandHistory i ≠ [] := hfull 0 (by omega)
      rw [listHistory, if_pos hfirst, List.map_cons, htail, List.range_succ_eq_map,
        List.map_cons, List.map_map]
      exact congrArg _ (List.map_congr_left fun j _ => congrArg commandHistory (hshift j).symm)

theorem printHistory_short (hh : Ring.Holds SIZE [] lines h) (hne : ∀ l ∈ lines, l ≠ [])
    (hle : lines.length ≤ SIZE) : (printHistory h.slots).map Prod.snd = lines := by
  have hslot {j : ℕ} (hj : j < lines.length) : h.slots (0 + j) = lines[j] := by
    rw [Nat.zero_add]
    exact hh.slots_short hle hj
  rw [printHistory, listHistory_eq hle (fun j hj => hslot hj ▸ hne _ (List.getElem_mem hj))
    (fun hlt => hh.unwritten _ (by omega) (by omega))]
  refine List.ext_getElem (by simp) fun j hj hj' => ?_
  rw [List.getElem_map, List.getElem_range, hslot hj']

theorem printHistory_full (hh : Ring.Holds SIZE [] lines h) (hne : ∀ l ∈ lines, l ≠ [])
    (hle : SIZE ≤ lines.length) :
    (printHistory h.slots).map Prod.snd = (List.range SIZE).map h.slots := by
  have hrot := hh.slots_rotate hle
  have hfull (j : ℕ) (hj : j < SIZE) : h.slots j ≠ [] := by
    have hmem : h.slots j ∈ (List.range SIZE).map h.slots :=
      List.mem_map_of_mem (List.mem_range.mpr hj)
    rw [hrot, List.mem_rotate] at hmem
    exact hne _ (List.mem_of_mem_drop hmem)
  rw [printHistory, listHistory_eq (Nat.le_refl _) (fun j hj => by simpa using hfull j hj)
    (fun hlt => absurd hlt (Nat.lt_irrefl _))]
  simp only [Nat.zero_add]

theorem lists_recent_of_holds (hh : Ring.Holds SIZE [] lines h) (hne : ∀ l ∈ lines, l ≠ []) :
    ListsRecent h lines ↔ lines.length ≤ SIZE ∨
      (Ring.recent SIZE lines).rotate (lines.length % SIZE) = Ring.recent SIZE lines := by
  have hboth : ListsRecent h lines ↔
      (printHistory h.slots).map Prod.snd = Ring.recent SIZE lines :=
    ⟨And.left, fun hp => ⟨hp, hp⟩⟩
  rw [hboth]
  rcases Nat.le_total lines.length SIZE with hle | hge
  · exact iff_of_true ((printHistory_short hh hne hle).trans (Ring.recent_of_le hle).symm) (.inl hle)
  · rw [printHistory_full hh hne hge, hh.slots_recent_iff hge]
    refine ⟨.inr, fun hor => hor.elim (fun hle => ?_) id⟩
    have hlen : lines.length = SIZE := Nat.le_antisymm hle hge
    rw [hlen, Nat.mod_self, List.rotate_zero]

end Listing

section Recorded
variable {lines : List Word}

theorem recorded_lines (hne : ∀ l ∈ lines, l ≠ [] ∧ l ≠ newline) :
    Ring.Holds SIZE [] lines (lines.foldl record blankHistory) := by
  have hkeep : lines.filter (· ≠ newline) = lines :=
    List.filter_eq_self.mpr fun l hl => by simpa using (hne l hl).2
  have hholds := recorded_holds lines
  rwa [hkeep] at hholds

theorem lists_recent_iff (hne : ∀ l ∈ lines, l ≠ [] ∧ l ≠ newline) :
    ListsRecent (lines.foldl record blankHistory) lines ↔ lines.length ≤ SIZE ∨
      (Ring.recent SIZE lines).rotate (lines.length % SIZE) = Ring.recent SIZE lines :=
  lists_recent_of_holds (recorded_lines hne) fun l hl => (hne l hl).1

theorem two_lines_listed :
    ListsRecent ([['l', 's', '\n'], ['p', 's', '\n']].foldl record blankHistory)
      [['l', 's', '\n'], ['p', 's', '\n']] :=
  (lists_recent_iff (by decide)).mpr (.inl (by decide))

def overfull : List Word := List.replicate SIZE ['l', 's', '\n'] ++ [['p', 's', '\n']]

theorem overfull_out_of_order : (∀ l ∈ overfull, l ≠ [] ∧ l ≠ newline) ∧
    ¬ ListsRecent (overfull.foldl record blankHistory) overfull := by
  have hne : ∀ l ∈ overfull, l ≠ [] ∧ l ≠ newline := by
    intro l hl
    rcases List.mem_append.mp hl with hl | hl
    · rw [List.eq_of_mem_replicate hl]
      decide
    · rw [List.mem_singleton.mp hl]
      decide
  have hlen : overfull.length = SIZE + 1 := by simp [overfull]
  refine ⟨hne, fun hlist => ?_⟩
  rcases (lists_recent_of_holds (recorded_lines hne) fun l hl => (hne l hl).1).mp hlist with
    hle | hrot
  · rw [hlen] at hle
    exact Nat.not_succ_le_self SIZE hle
  · have hdrop : Ring.recent SIZE overfull =
        List.replicate (SIZE - 1) ['l', 's', '\n'] ++ [['p', 's', '\n']] := by
      rw [Ring.recent, hlen, Nat.add_sub_cancel_left, overfull,
        List.drop_append_of_le_length (by rw [List.length_replicate]; decide), List.drop_replicate]
    have hone : overfull.length % SIZE = 1 := by rw [hlen, Nat.add_mod_left]; decide
    rw [hone, List.rotate_one_eq_self_iff_eq_replicate, hdrop] at hrot
    obtain ⟨l, hall⟩ := hrot
    have hls : ['l', 's', '\n'] = l := List.eq_of_mem_replicate (hall ▸
      List.mem_append_left _ (List.mem_replicate.mpr ⟨by decide, rfl⟩))
    have hps : ['p', 's', '\n'] = l := List.eq_of_mem_replicate (hall ▸
      List.mem_append_right _ (List.mem_singleton_self _))
    exact absurd (hls.trans hps.symm) (by decide)

end Recorded
end Shell
