import Mathlib.Data.List.Basic
import Mathlib.Data.List.DropRight
import Mathlib.Tactic.Common

namespace Fields
variable {α : Type} {p : α → Bool}

theorem splitOnP_cases (p : α → Bool) (l : List α) :
    ((∀ a ∈ l, p a = false) ∧ l.splitOnP p = [l]) ∨
      ∃ first sep rest, l = first ++ sep :: rest ∧ (∀ a ∈ first, p a = false) ∧ p sep = true ∧
        l.splitOnP p = first :: rest.splitOnP p := by
  induction l with
  | nil => exact .inl ⟨fun a ha => absurd ha List.not_mem_nil, rfl⟩
  | cons b l ih =>
    cases hb : p b with
    | true =>
      refine .inr ⟨[], b, l, rfl, fun a ha => absurd ha List.not_mem_nil, hb, ?_⟩
      rw [List.splitOnP_cons_eq_if_modifyHead, if_pos hb]
    | false =>
      rw [List.splitOnP_cons_eq_if_modifyHead, if_neg (by simp [hb])]
      rcases ih with ⟨hall, hone⟩ | ⟨first, sep, rest, rfl, hfirst, hsep, hcut⟩
      · exact .inl ⟨List.forall_mem_cons.mpr ⟨hb, hall⟩, by rw [hone]; rfl⟩
      · exact .inr ⟨b :: first, sep, rest, rfl, List.forall_mem_cons.mpr ⟨hb, hfirst⟩, hsep,
          by rw [hcut]; rfl⟩

theorem splitOnP_induction {motive : List α → Prop} (l : List α)
    (single : ∀ l, (∀ a ∈ l, p a = false) → l.splitOnP p = [l] → motive l)
    (cut : ∀ first sep rest, (∀ a ∈ first, p a = false) → p sep = true →
      (first ++ sep :: rest).splitOnP p = first :: rest.splitOnP p → motive rest →
      motive (first ++ sep :: rest)) : motive l := by
  induction hn : l.length using Nat.strongRecOn generalizing l with
  | _ n ih =>
    rcases splitOnP_cases p l with ⟨hall, hone⟩ | ⟨first, sep, rest, rfl, hfirst, hsep, hcut⟩
    · exact single l hall hone
    · refine cut first sep rest hfirst hsep hcut (ih rest.length ?_ rest rfl)
      rw [← hn, List.length_append, List.length_cons]
      omega

theorem length_splitOnP (p : α → Bool) (l : List α) :
    (l.splitOnP p).length = l.countP p + 1 := by
  induction l with
  | nil => rfl
  | cons b l ih =>
    rw [List.splitOnP_cons_eq_if_modifyHead, List.countP_cons]
    split <;> simp_all

theorem mem_of_mem_splitOnP {l seg : List α} {x : α} (hseg : seg ∈ l.splitOnP p) (hx : x ∈ seg) :
    x ∈ l ∧ p x = false := by
  induction l using splitOnP_induction (p := p) with
  | single l hall hone =>
    rw [hone] at hseg
    obtain rfl := List.mem_singleton.mp hseg
    exact ⟨hx, hall x hx⟩
  | cut first sep rest hfirst hsep hcut ih =>
    rw [hcut] at hseg
    rcases List.mem_cons.mp hseg with rfl | hseg
    · exact ⟨List.mem_append_left _ hx, hfirst x hx⟩
    · obtain ⟨hmem, hnot⟩ := ih hseg
      exact ⟨List.mem_append_right _ (List.mem_cons_of_mem _ hmem), hnot⟩

theorem all_of_splitOnP_nil {l : List α} (h : ∀ seg ∈ l.splitOnP p, seg = []) :
    ∀ x ∈ l, p x = true := by
  induction l using splitOnP_induction (p := p) with
  | single l hall hone =>
    obtain rfl : l = [] := h l (hone ▸ List.mem_cons_self)
    exact fun x hx => absurd hx List.not_mem_nil
  | cut first sep rest hfirst hsep hcut ih =>
    rw [hcut] at h
    obtain ⟨rfl, hrest⟩ := List.forall_mem_cons.mp h
    exact List.forall_mem_cons.mpr ⟨hsep, ih hrest⟩

section SplitOn
variable [BEq α] [LawfulBEq α] [DecidableEq α] {l : List α}

theorem splitOn_cases (x : α) (l : List α) :
    (l.splitOn x = [l] ∧ l.takeWhile (· ≠ x) = l) ∨
      ∃ rest, l = l.takeWhile (· ≠ x) ++ x :: rest ∧
        l.splitOn x = l.takeWhile (· ≠ x) :: rest.splitOn x := by
  rcases splitOnP_cases (· == x) l with ⟨hall, hone⟩ | ⟨first, sep, rest, rfl, hfirst, hsep, hcut⟩
  · exact .inl ⟨hone, List.takeWhile_eq_self_iff.mpr fun a ha => by simpa using hall a ha⟩
  · obtain rfl : sep = x := by simpa using hsep
    have hpos : ∀ a ∈ first, decide (a ≠ sep) = true := fun a ha => by simpa using hfirst a ha
    have htake : (first ++ sep :: rest).takeWhile (· ≠ sep) = first := by
      rw [List.takeWhile_append_of_pos hpos, List.takeWhile_cons_of_neg (by simp), List.append_nil]
    rw [htake]
    exact .inr ⟨rest, rfl, hcut⟩

variable {x : α} {seg : List α} {more : List (List α)}

theorem takeWhile_of_splitOn (h : l.splitOn x = seg :: more) : l.takeWhile (· ≠ x) = seg := by
  rcases splitOn_cases x l with ⟨hone, hall⟩ | ⟨rest, -, hcut⟩
  · rw [hall]
    exact (List.cons.inj (hone.symm.trans h)).1
  · exact (List.cons.inj (hcut.symm.trans h)).1

theorem eq_of_splitOn_single (h : l.splitOn x = [seg]) : l = seg := by
  rcases splitOn_cases x l with ⟨hone, -⟩ | ⟨rest, -, hcut⟩
  · exact (List.cons.inj (hone.symm.trans h)).1
  · exact absurd (List.cons.inj (hcut.symm.trans h)).2 (List.splitOn_ne_nil x rest)

theorem rest_of_splitOn (h : l.splitOn x = seg :: more) (hmore : more ≠ []) :
    ∃ rest, l = seg ++ x :: rest ∧ rest.splitOn x = more := by
  have hseg := takeWhile_of_splitOn h
  rcases splitOn_cases x l with ⟨hone, -⟩ | ⟨rest, heq, hcut⟩
  · exact absurd (List.cons.inj (hone.symm.trans h)).2.symm hmore
  · rw [hseg] at heq
    exact ⟨rest, heq, (List.cons.inj (hcut.symm.trans h)).2⟩

end SplitOn

def nonempty (p : α → Bool) (l : List α) : List (List α) :=
  (l.splitOnP p).filter fun w => !w.isEmpty

inductive Runs (p : α → Bool) : List α → List (List α) → Prop
  | nil {seps : List α} : (∀ a ∈ seps, p a = true) → Runs p seps []
  | cons {seps run rest : List α} {runs : List (List α)} : (∀ a ∈ seps, p a = true) → run ≠ [] →
      (∀ a ∈ run, p a = false) → (∀ a ∈ rest.head?, p a = true) → Runs p rest runs →
      Runs p (seps ++ (run ++ rest)) (run :: runs)

variable {l : List α} {a : α} {ws : List (List α)}

theorem Runs.cons_sep (h : Runs p l ws) (ha : p a = true) : Runs p (a :: l) ws := by
  cases h with
  | nil hseps => exact .nil (List.forall_mem_cons.mpr ⟨ha, hseps⟩)
  | cons hseps hne hrun hrest h =>
    exact .cons (List.forall_mem_cons.mpr ⟨ha, hseps⟩) hne hrun hrest h

theorem nonempty_sep (ha : p a = true) (l : List α) : nonempty p (a :: l) = nonempty p l := by
  rw [nonempty, List.splitOnP_cons_eq_if_modifyHead, if_pos ha]
  rfl

theorem nonempty_seps {seps : List α} (hseps : ∀ a ∈ seps, p a = true) (l : List α) :
    nonempty p (seps ++ l) = nonempty p l := by
  induction seps with
  | nil => rfl
  | cons b seps ih =>
    obtain ⟨hb, hseps⟩ := List.forall_mem_cons.mp hseps
    rw [List.cons_append, nonempty_sep hb, ih hseps]

theorem nonempty_run {run rest : List α} (hne : run ≠ []) (hrun : ∀ a ∈ run, p a = false)
    (hrest : ∀ a ∈ rest.head?, p a = true) :
    nonempty p (run ++ rest) = run :: nonempty p rest := by
  cases rest with
  | nil =>
    rw [List.append_nil, nonempty, List.splitOnP_eq_singleton hrun,
      List.filter_cons_of_pos (by simpa using hne)]
    rfl
  | cons b rest =>
    have hb : p b = true := hrest b rfl
    rw [nonempty_sep hb, nonempty, List.splitOnP_append_cons_of_forall_mem hrun b hb,
      List.filter_cons_of_pos (by simpa using hne)]
    rfl

theorem runs_nonempty (p : α → Bool) (l : List α) : Runs p l (nonempty p l) := by
  induction l using splitOnP_induction (p := p) with
  | single l hall hone =>
    cases l with
    | nil => exact .nil fun a ha => absurd ha List.not_mem_nil
    | cons b l =>
      have hrun := @Runs.cons _ p [] (b :: l) [] [] (fun a ha => absurd ha List.not_mem_nil)
        (List.cons_ne_nil b l) hall (fun a ha => by cases ha)
        (.nil fun a ha => absurd ha List.not_mem_nil)
      rw [List.nil_append, List.append_nil] at hrun
      rw [nonempty, hone]
      exact hrun
  | cut first sep rest hfirst hsep hcut ih =>
    have hrest : Runs p (sep :: rest) (nonempty p (sep :: rest)) := by
      rw [nonempty_sep hsep]
      exact ih.cons_sep hsep
    have hhead : ∀ a ∈ (sep :: rest).head?, p a = true := fun a ha => by cases ha; exact hsep
    cases first with
    | nil => exact hrest
    | cons b first =>
      rw [nonempty_run (List.cons_ne_nil b first) hfirst hhead]
      exact .cons (fun a ha => absurd ha List.not_mem_nil) (List.cons_ne_nil b first) hfirst hhead
        hrest

theorem Runs.eq_nonempty (h : Runs p l ws) : ws = nonempty p l := by
  induction h with
  | nil hseps =>
    have hnil := nonempty_seps hseps []
    rw [List.append_nil] at hnil
    rw [hnil]
    rfl
  | cons hseps hne hrun hrest _ ih =>
    rw [nonempty_seps hseps, nonempty_run hne hrun hrest, ← ih]

theorem runs_iff : Runs p l ws ↔ ws = nonempty p l := by
  constructor
  · exact Runs.eq_nonempty
  · rintro rfl
    exact runs_nonempty p l

theorem nonempty_intercalate {sep last : α} (hsep : p sep = true) (hlast : p last = true)
    (hne : ∀ w ∈ ws, w ≠ []) (hrun : ∀ w ∈ ws, ∀ a ∈ w, p a = false) :
    nonempty p ([sep].intercalate ws ++ [last]) = ws := by
  induction ws with
  | nil => exact nonempty_seps (List.forall_mem_singleton.mpr hlast) []
  | cons w ws ih =>
    obtain ⟨hw, hne⟩ := List.forall_mem_cons.mp hne
    obtain ⟨hclean, hrun⟩ := List.forall_mem_cons.mp hrun
    have hrest := ih hne hrun
    cases ws with
    | nil =>
      rw [List.intercalate_singleton, nonempty_run hw hclean fun a ha => by cases ha; exact hlast]
      exact congrArg (w :: ·) hrest
    | cons w' ws =>
      rw [List.intercalate_cons_cons, List.append_assoc, List.append_assoc,
        nonempty_run hw hclean fun a ha => by cases ha; exact hsep]
      exact congrArg (w :: ·) ((nonempty_sep hsep _).trans hrest)

theorem mem_of_mem_intercalate {sep : α} (h : a ∈ [sep].intercalate ws) :
    a = sep ∨ ∃ w ∈ ws, a ∈ w := by
  induction ws with
  | nil => exact absurd h List.not_mem_nil
  | cons w ws ih =>
    cases ws with
    | nil => exact .inr ⟨w, List.mem_cons_self, by simpa using h⟩
    | cons w' ws =>
      rw [List.intercalate_cons_cons, List.mem_append, List.mem_append, List.mem_singleton] at h
      rcases h with (hw | rfl) | hrest
      · exact .inr ⟨w, List.mem_cons_self, hw⟩
      · exact .inl rfl
      · rcases ih hrest with hsep | ⟨u, hu, ha⟩
        · exact .inl hsep
        · exact .inr ⟨u, List.mem_cons_of_mem _ hu, ha⟩

def extent : List (List α) → ℕ
  | [] => 0
  | w :: ws => w.length + 1 + extent ws

theorem extent_append (us ws : List (List α)) : extent (us ++ ws) = extent us + extent ws := by
  induction us with
  | nil => exact (Nat.zero_add _).symm
  | cons w us ih =>
    rw [List.cons_append, extent, extent, ih]
    omega

theorem length_intercalate (sep : α) (ws : List (List α)) :
    ([sep].intercalate ws).length + 1 = max 1 (extent ws) := by
  induction ws with
  | nil => rfl
  | cons w ws ih =>
    cases ws with
    | nil => simp [extent]
    | cons w' ws =>
      rw [List.intercalate_cons_cons, List.length_append, List.length_append]
      simp only [extent, List.length_singleton] at ih ⊢
      omega

theorem Runs.extent_le (h : Runs p l ws) (hend : ∀ a ∈ l.getLast?, p a = true) :
    extent ws + (if l.head?.any p then 1 else 0) ≤ l.length := by
  induction h with
  | @nil seps hseps =>
    cases seps with
    | nil => exact Nat.zero_le _
    | cons a seps => simp [extent, hseps a List.mem_cons_self]
  | @cons seps run rest runs hseps hne hrun hrest _ ih =>
    cases rest with
    | nil =>
      have hlast : run.getLast hne ∈ (seps ++ (run ++ [])).getLast? := by
        simp [List.getLast?_append, List.getLast?_eq_some_getLast hne]
      have := hend _ hlast
      rw [hrun _ (List.getLast_mem hne)] at this
      cases this
    | cons b rest =>
      have hle := ih fun a ha => hend a (by simpa [List.getLast?_append] using ha)
      have hb : (b :: rest).head?.any p = true := by simpa using hrest b rfl
      have hhead : (if (seps ++ (run ++ b :: rest)).head?.any p then 1 else 0) ≤ seps.length := by
        cases seps with
        | nil =>
          cases run with
          | nil => exact absurd rfl hne
          | cons a run => simp [hrun a List.mem_cons_self]
        | cons a seps => simp only [List.length_cons]; split <;> omega
      rw [if_pos hb] at hle
      simp only [extent, List.length_append]
      omega

section Before

def runBefore (p : α → Bool) (l : List α) (i : ℕ) : ℕ := ((l.take i).rtakeWhile p).length

@[simp] theorem runBefore_zero (p : α → Bool) (l : List α) : runBefore p l 0 = 0 := by
  rw [runBefore, List.take_zero, List.rtakeWhile_nil]
  rfl

variable {i : ℕ}

theorem runBefore_pos (h : l[i]? = some a) (ha : p a = true) :
    runBefore p l (i + 1) = runBefore p l i + 1 := by
  rw [runBefore, List.take_add_one, h, Option.toList_some, List.rtakeWhile_concat_pos _ _ _ ha,
    List.length_append]
  rfl

theorem runBefore_neg (h : l[i]? = some a) (ha : p a = false) : runBefore p l (i + 1) = 0 := by
  rw [runBefore, List.take_add_one, h, Option.toList_some,
    List.rtakeWhile_concat_neg _ _ _ (by simp [ha])]
  rfl

end Before

end Fields
