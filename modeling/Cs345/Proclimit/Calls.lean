import Cs345.Proclimit.Shape

namespace Proclimit
variable {R : Type} {init : TaskPtr} {s s' s0 : System R} {k k' : Kernel R}

section Calls

structure Call where
  target : TaskPtr
  rootPid : ℤ
  limit : ℤ
  interval : ℤ

def Call.limits (c : Call) : ℤ × ℤ × ℤ := (c.rootPid, c.limit, c.interval)

def TaskStruct.limits (t : TaskStruct R) : ℤ × ℤ × ℤ := (t.rootPid, t.timeLimit, t.timeInterval)

def target (k : Kernel R) (pid : ℤ) : Option TaskPtr :=
  if pid = -1 then some k.current else if pid > -1 then findProcess k pid else none

def succeeded (s : System R) : Event → Option Call
  | .setproclimit caller pid limit interval =>
    if limit ≤ interval then
      (target { s.kernel with current := caller } pid).bind fun p =>
        (s.kernel.task p).map fun t => ⟨p, t.pid, limit, interval⟩
    else none
  | _ => none

def calls (s0 : System R) (tr : List (Event × System R)) : List Call :=
  Machine.trace succeeded s0 tr

def Decided (ks : TaskPtr → List TaskPtr) (q : TaskPtr) (limits : ℤ × ℤ × ℤ) : List Call → Prop
  | [] => limits = (-1, -1, -1)
  | c :: cs => Forest.Reaches ks c.target q ∧ limits = c.limits ∨
      ¬ Forest.Reaches ks c.target q ∧ Decided ks q limits cs

theorem decided_congr {ks ks' : TaskPtr → List TaskPtr} {q q' : TaskPtr} {limits : ℤ × ℤ × ℤ}
    {cs : List Call}
    (h : ∀ c ∈ cs, Forest.Reaches ks c.target q ↔ Forest.Reaches ks' c.target q') :
    Decided ks q limits cs ↔ Decided ks' q' limits cs := by
  induction cs with
  | nil => rfl
  | cons c cs ih =>
    simp only [Decided, h c List.mem_cons_self, ih fun c hc => h c (List.mem_cons_of_mem _ hc)]

theorem target_eq (hk : k.WellFormed) {pid : ℤ} {p : TaskPtr} (h : Targets k pid p) :
    target k pid = some p := by
  rcases h with ⟨rfl, rfl⟩ | ⟨hpid, hp, t, ht, rfl⟩
  · rfl
  · rw [target, if_neg (by omega), if_pos hpid]
    exact findProcess_eq hp ht fun q _ u hu heq => hk.pids q p u t hu ht heq

theorem targets_of_target {pid : ℤ} {p : TaskPtr} (h : target k pid = some p) : Targets k pid p := by
  simp only [target] at h
  split_ifs at h with h1 h2
  · exact .inl ⟨h1, (Option.some.inj h).symm⟩
  · exact .inr ⟨h2, findProcess_some h⟩

end Calls

section Fork
variable {caller child : TaskPtr} {t : TaskStruct R} {pid : ℤ}

theorem reaches_fork (hk : k.WellFormed) (ht : k.task caller = some t) (hc : k.task child = none)
    {a q : TaskPtr} (ha : a ≠ child) :
    Forest.Reaches (kids (forkTask k caller child t pid).task) a q ↔
      Forest.Reaches (kids k.task) a (if q = child then caller else q) := by
  have hold {p c : TaskPtr} (h : c ∈ kids k.task p) :
      c ∈ kids (forkTask k caller child t pid).task p := by
    have hp : p ≠ child := by
      rintro rfl
      simp [kids, hc] at h
    rw [kids_fork ht, if_neg hp]
    split_ifs with hpc
    · exact List.mem_append_left _ (hpc ▸ h)
    · exact h
  have hlift {p : TaskPtr} (h : Forest.Reaches (kids k.task) a p) :
      Forest.Reaches (kids (forkTask k caller child t pid).task) a p :=
    Relation.ReflTransGen.mono (fun _ _ h => hold h) _ _ h
  constructor
  · intro h
    induction h with
    | refl => rw [if_neg ha]; exact .refl a
    | @tail p c _ hpc ih =>
      have hp : p ≠ child := by
        rintro rfl
        have : c ∈ kids (forkTask k caller p t pid).task p := hpc
        rw [kids_fork ht, if_pos rfl] at this
        cases this
      rw [if_neg hp] at ih
      rcases mem_kids_fork hk ht hc hpc with ⟨rfl, rfl⟩ | ⟨hmem, hne⟩
      · rwa [if_pos rfl]
      · rw [if_neg hne]
        exact ih.step hmem
  · intro h
    split_ifs at h with hq
    · subst hq
      refine (hlift h).step ?_
      have hne : caller ≠ q := by
        rintro rfl
        rw [hc] at ht
        cases ht
      rw [kids_fork ht, if_neg hne, if_pos rfl]
      exact List.mem_append_right _ (List.mem_singleton_self _)
    · exact hlift h

end Fork

section Law

structure Lawful (init : TaskPtr) (s : System R) (cs : List Call) : Prop where
  sound : Sound init s
  live : ∀ c ∈ cs, (s.kernel.task c.target).isSome = true
  decided : ∀ p t, s.kernel.task p = some t → Decided (kids s.kernel.task) p t.limits cs

theorem lawful_boot (h : Boot init s) : Lawful init s [] := by
  refine ⟨sound_boot h, by simp, fun p t ht => ?_⟩
  obtain ⟨h1, h2, h3⟩ := h.noFamily p t ht
  simp [Decided, TaskStruct.limits, h1, h2, h3]

variable {cs : List Call}

theorem lawful_fork (h : Lawful init s cs) {caller child : TaskPtr} {t : TaskStruct R} {pid : ℤ}
    (ht : s.kernel.task caller = some t) (hc : s.kernel.task child = none)
    (hs' : Sound init ⟨forkTask s.kernel caller child t pid, pid :: s.used⟩) :
    Lawful init ⟨forkTask s.kernel caller child t pid, pid :: s.used⟩ cs := by
  have hne (c : Call) (hmem : c ∈ cs) : c.target ≠ child := by
    rintro heq
    have := h.live c hmem
    rw [heq, hc] at this
    cases this
  refine ⟨hs', fun c hmem => ?_, fun p u hu => ?_⟩
  · exact (fork_live _ (hne c hmem) ht).trans (h.live c hmem)
  · have hreach : Decided (kids (forkTask s.kernel caller child t pid).task) p u.limits cs ↔
        Decided (kids s.kernel.task) (if p = child then caller else p) u.limits cs :=
      decided_congr fun c hmem => reaches_fork h.sound.wellFormed ht hc (hne c hmem)
    refine hreach.mpr ?_
    rcases fork_task ht hu with ⟨rfl, -, h1, h2, h3⟩ | ⟨hp, v, hv, -, h1, h2, h3⟩
    · rw [if_pos rfl, TaskStruct.limits, ← h1, ← h2, ← h3]
      exact h.decided caller t ht
    · rw [if_neg hp, TaskStruct.limits, ← h1, ← h2, ← h3]
      exact h.decided p v hv

theorem lawful_set (h : Lawful init s cs) {caller : TaskPtr} {pid limit interval ret : ℤ} {n : ℕ}
    (hcaller : (s.kernel.task caller).isSome = true)
    (hset : sysSetproclimit n { s.kernel with current := caller } pid limit interval = some (ret, k))
    (hs' : Sound init ⟨k, s.used⟩) :
    Lawful init ⟨k, s.used⟩
      ((succeeded s (.setproclimit caller pid limit interval)).toList ++ cs) := by
  have hk := h.sound.wellFormed.run_as hcaller
  rcases sysSetproclimit_cases hset with ⟨-, rfl, hno⟩ | ⟨-, hle, p, hp, he⟩
  · have hnone : succeeded s (.setproclimit caller pid limit interval) = none := by
      simp only [succeeded]
      split_ifs with hle
      · cases htarget : target { s.kernel with current := caller } pid with
        | none => rfl
        | some p =>
          refine absurd ⟨hle, ?_⟩ hno
          rcases targets_of_target htarget with ⟨hpid, -⟩ | ⟨hpid, hp, t, ht, heq⟩
          · exact .inl hpid
          · exact .inr ⟨hpid, p, hp, t, ht, heq⟩
      · rfl
    rw [hnone]
    exact ⟨hs', h.live, h.decided⟩
  · obtain ⟨t, ht⟩ := Option.isSome_iff_exists.mp (hk.targets_live hp)
    have htask : s.kernel.task p = some t := ht
    have hsome : succeeded s (.setproclimit caller pid limit interval) =
        some ⟨p, t.pid, limit, interval⟩ := by
      simp only [succeeded, if_pos hle, target_eq hk hp, Option.bind_some, htask, Option.map_some]
    have hkids : kids k.task = kids s.kernel.task := he.kids ht
    rw [hsome]
    refine ⟨hs', fun c hc => ?_, fun q u hu => ?_⟩
    · rcases List.mem_cons.mp hc with rfl | hc
      · exact (he.live ht p).trans (by simp [htask])
      · exact (he.live ht c.target).trans (h.live c hc)
    · simp only [Option.toList, List.singleton_append, Decided, hkids]
      rcases he.task_some ht hu with ⟨hin, h1, h2, h3⟩ | ⟨hout, hu0⟩
      · exact .inl ⟨hin, by simp [TaskStruct.limits, Call.limits, h1, h2, h3]⟩
      · exact .inr ⟨hout, h.decided q u hu0⟩

theorem lawful_step {e : Event} (h : Lawful init s cs)
    (hstep : (plainFamilies R init).step s e s') :
    Lawful init s' ((succeeded s e).toList ++ cs) := by
  obtain ⟨hplain, hstep⟩ := hstep
  have hs' := sound_step h.sound hstep
  cases hstep with
  | fork ht hc _ _ => exact lawful_fork h ht hc hs'
  | exit _ _ => cases hplain
  | setproclimit hcaller hset => exact lawful_set h hcaller hset hs'

theorem last_call_wins {tr : List (Event × System R)} (hboot : Boot init s0)
    (hrun : (plainFamilies R init).Run s0 tr) {p : TaskPtr} {t : TaskStruct R}
    (ht : (Machine.last s0 tr).kernel.task p = some t) :
    Decided (kids (Machine.last s0 tr).kernel.task) p t.limits (calls s0 tr).reverse := by
  have hlaw := hrun.past (P := Lawful init) (fun _ _ _ _ h hstep => lawful_step h hstep)
    (lawful_boot hboot)
  rw [List.append_nil] at hlaw
  exact hlaw.decided p t ht

end Law

section Sample

def nestedEvents : List Event := forks ++ [.setproclimit 2 2 1 2, .setproclimit 1 3 0 5]

theorem nested_run :
    (plainFamilies Unit 1).Run bootSystem (performAll bootSystem nestedEvents) :=
  .cons ⟨rfl, Step.fork rfl rfl (by decide) (by decide)⟩ <|
  .cons ⟨rfl, Step.fork rfl rfl (by decide) (by decide)⟩ <|
  .cons ⟨rfl, Step.fork rfl rfl (by decide) (by decide)⟩ <|
  .cons ⟨rfl, Step.setproclimit (n := 5) rfl rfl⟩ <|
  .cons ⟨rfl, Step.setproclimit (n := 5) rfl rfl⟩ <| .nil _

theorem nested_decided :
    Decided (kids nested.kernel.task) 2 (2, 1, 2) [⟨3, 3, 0, 5⟩, ⟨2, 2, 1, 2⟩] :=
  last_call_wins boot_system nested_run (p := 2) rfl

end Sample
end Proclimit
