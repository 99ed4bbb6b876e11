import Cs345.Shell.Targets
import Cs345.Shell.Dataflow

namespace Shell
open Streams

variable {σ : Type}

section Contents

def FileSystem.content (fs : FileSystem) (f : Word) : List Char :=
  ((fs.file f).map File.content).getD []

def FileSystem.setContent (fs : FileSystem) (f : Word) (content : List Char) : FileSystem :=
  { fs with
    file := Function.update fs.file f ((fs.file f).map fun file => { file with content := content }) }

def putAt (pos : ℕ) (y : Char) (content : List Char) : List Char :=
  content.take pos ++ y :: content.drop (pos + 1)

-- O_APPEND moves the offset to the end before each write
def offset : OpenMode → ℕ → List Char → ℕ
  | .append, _, content => content.length
  | _, pos, _ => pos

variable {fs : FileSystem} {f g : Word} {content : List Char}

theorem putAt_end (y : Char) (content : List Char) :
    putAt content.length y content = content ++ [y] := by
  simp [putAt]

theorem content_setContent (h : (fs.file f).isSome = true) :
    (fs.setContent f content).content f = content := by
  obtain ⟨file, hfile⟩ := Option.isSome_iff_exists.mp h
  simp [FileSystem.content, FileSystem.setContent, hfile]

theorem content_setContent_of_ne (h : g ≠ f) : (fs.setContent f content).content g = fs.content g := by
  simp [FileSystem.content, FileSystem.setContent, h]

theorem setContent_setContent (fs : FileSystem) (f : Word) (content content' : List Char) :
    (fs.setContent f content).setContent f content' = fs.setContent f content' := by
  simp only [FileSystem.setContent, Function.update_self, Function.update_idem, Option.map_map]
  rfl

theorem setContent_self (fs : FileSystem) (f : Word) : fs.setContent f (fs.content f) = fs := by
  have hsame : ((fs.file f).map fun file => { file with content := fs.content f }) = fs.file f := by
    cases hf : fs.file f <;> simp [FileSystem.content, hf]
  rw [FileSystem.setContent, hsame, Function.update_eq_self]

end Contents

section Machine

structure Offsets where
  inPos : ℕ
  outPos : ℕ
  stdin : Channel Char
  stdout : List Char

inductive Touches (t : FdTable) (fs : FileSystem) (o : Offsets) :
    Act Char → FileSystem → Offsets → Prop
  | readFile {f : Word} {x : Char} : t 0 = some (.file f .read) →
      (fs.content f)[o.inPos]? = some x →
      Touches t fs o (.read x) fs { o with inPos := o.inPos + 1 }
  | eofFile {f : Word} : t 0 = some (.file f .read) → (fs.content f)[o.inPos]? = none →
      Touches t fs o .eof fs o
  | readStdin {x : Char} {xs : List Char} : t 0 = some (.inherited 0) → o.stdin.unread = x :: xs →
      Touches t fs o (.read x) fs { o with stdin := o.stdin.pull }
  | eofStdin : t 0 = some (.inherited 0) → o.stdin.unread = [] → Touches t fs o .eof fs o
  | writeFile {f : Word} {mode : OpenMode} {y : Char} : t 1 = some (.file f mode) →
      Touches t fs o (.write y)
        (fs.setContent f (putAt (offset mode o.outPos (fs.content f)) y (fs.content f)))
        { o with outPos := offset mode o.outPos (fs.content f) + 1 }
  | writeStdout {y : Char} : t 1 = some (.inherited 1) →
      Touches t fs o (.write y) fs { o with stdout := o.stdout ++ [y] }
  | exit : Touches t fs o .exit fs o

structure Filed (σ : Type) where
  shell : State σ
  offsets : Offsets

inductive FiledStep (P : Programs σ Char) (v : ArgVector) : Filed σ → Actor → Filed σ → Prop
  | shell {r : Filed σ} {a : Actor} {s : State σ} : Quiet r.shell a →
      Step P.world v r.shell a s → FiledStep P v r a { r with shell := s }
  | run {r : Filed σ} {p q : σ} {a : Act Char} {fs : FileSystem} {o : Offsets} :
      r.shell.pc = .running p → P.io p a q → Touches r.shell.table r.shell.fs r.offsets a fs o →
      FiledStep P v r .main
        ⟨{ r.shell with pc := if kind a = .exit then .exited else .running q, fs := fs }, o⟩

structure FiledBoot (fs : FileSystem) (input : List Char) (r : Filed σ) : Prop where
  shell : Boot r.shell
  fs : r.shell.fs = fs
  offsets : r.offsets = ⟨0, 0, .fresh input, []⟩

def filed (P : Programs σ Char) (v : ArgVector) (fs : FileSystem) (input : List Char) :
    Machine (Filed σ) Actor where
  init := FiledBoot fs input
  step := FiledStep P v

end Machine

section Ends

def unread (e : FileEnd) (fs : FileSystem) (o : Offsets) : List Char :=
  match e with
  | .file f _ => (fs.content f).drop o.inPos
  | _ => o.stdin.unread

def delivered (e : FileEnd) (fs : FileSystem) (ys : List Char) : FileSystem × List Char :=
  match e with
  | .file g _ => (fs.setContent g (fs.content g ++ ys), [])
  | _ => (fs, ys)

def Separate (e0 e1 : FileEnd) : Prop := ∀ f m m', e0 = .file f m → e1 ≠ .file f m'

def Readable (e : FileEnd) : Prop := e = .inherited 0 ∨ ∃ f, e = .file f .read

def Writable (fs : FileSystem) (outPos : ℕ) (e : FileEnd) : Prop :=
  e = .inherited 1 ∨ ∃ g, (fs.file g).isSome = true ∧
    (e = .file g .append ∨ e = .file g .write ∧ outPos = (fs.content g).length)

variable {t : FdTable} {fs fs' fs1 : FileSystem} {o o' : Offsets} {e0 e1 : FileEnd}
  {a : Act Char} {out xs : List Char}

theorem offset_end {g : Word} {mode : OpenMode} (hw : Writable fs o.outPos (.file g mode)) :
    (fs.file g).isSome = true ∧ offset mode o.outPos (fs.content g) = (fs.content g).length := by
  rcases hw with hw | ⟨f, hf, hw | ⟨hw, hpos⟩⟩
  · cases hw
  · cases hw
    exact ⟨hf, rfl⟩
  · cases hw
    exact ⟨hf, hpos⟩

theorem delivered_file {g : Word} {mode : OpenMode} (h : (fs, o.stdout) = delivered (.file g mode) fs1 out)
    (hsome : (fs.file g).isSome = true) (y : Char) :
    (fs.setContent g (fs.content g ++ [y]), o.stdout) = delivered (.file g mode) fs1 (out ++ [y]) := by
  simp only [delivered, Prod.mk.injEq] at h ⊢
  obtain ⟨rfl, hout⟩ := h
  have hsome1 : (fs1.file g).isSome = true := by
    simpa [FileSystem.setContent] using hsome
  refine ⟨?_, hout⟩
  rw [setContent_setContent, content_setContent hsome1, List.append_assoc]

theorem unread_write {f : Word} {mode : OpenMode} (hsep : Separate e0 (.file f mode))
    (content : List Char) (pos : ℕ) :
    unread e0 (fs.setContent f content) { o with outPos := pos } = unread e0 fs o := by
  cases e0 with
  | file g m =>
    have hne : g ≠ f := by
      rintro rfl
      exact hsep g m mode rfl rfl
    simp only [unread, content_setContent_of_ne hne]
  | _ => rfl

theorem Touches.carries (h : Touches t fs o a fs' o') (h0 : t 0 = some e0) (h1 : t 1 = some e1)
    (hsep : Separate e0 e1) (hw : Writable fs o.outPos e1)
    (hout : (fs, o.stdout) = delivered e1 fs1 out) :
    Takes a (unread e0 fs o) (unread e0 fs' o') ∧ Writable fs' o'.outPos e1 ∧
      (fs', o'.stdout) = delivered e1 fs1 (out ++ a.output) := by
  cases h with
  | @readFile f x hf hx =>
    obtain rfl := Option.some.inj (h0.symm.trans hf)
    obtain ⟨hlt, rfl⟩ := List.getElem?_eq_some_iff.mp hx
    refine ⟨?_, hw, by simpa [Act.output] using hout⟩
    simp only [unread, List.drop_eq_getElem_cons hlt]
    exact .read
  | eofFile hf hnone =>
    obtain rfl := Option.some.inj (h0.symm.trans hf)
    refine ⟨?_, hw, by simpa [Act.output] using hout⟩
    rw [unread, List.drop_eq_nil_of_le (List.getElem?_eq_none_iff.mp hnone)]
    exact .eof
  | readStdin hf hx =>
    obtain rfl := Option.some.inj (h0.symm.trans hf)
    refine ⟨?_, hw, by simpa [Act.output] using hout⟩
    simp only [unread, hx, Channel.pull_unread hx]
    exact .read
  | eofStdin hf hnil =>
    obtain rfl := Option.some.inj (h0.symm.trans hf)
    refine ⟨?_, hw, by simpa [Act.output] using hout⟩
    simp only [unread, hnil]
    exact .eof
  | @writeFile f mode y hf =>
    obtain rfl := Option.some.inj (h1.symm.trans hf)
    obtain ⟨hsome, hend⟩ := offset_end hw
    rw [hend, putAt_end]
    refine ⟨by rw [unread_write hsep]; exact .write, ?_, delivered_file hout hsome y⟩
    refine .inr ⟨f, by simpa [FileSystem.setContent] using hsome, ?_⟩
    rcases hw with hw | ⟨g, -, hw | ⟨hw, -⟩⟩ <;> cases hw
    · exact .inl rfl
    · exact .inr ⟨rfl, by rw [content_setContent hsome, List.length_append]; rfl⟩
  | writeStdout hf =>
    obtain rfl := Option.some.inj (h1.symm.trans hf)
    simp only [delivered, Prod.mk.injEq] at hout
    obtain ⟨rfl, rfl⟩ := hout
    exact ⟨by cases e0 <;> exact .write, hw, rfl⟩
  | exit => exact ⟨.exit, hw, by simpa [Act.output] using hout⟩

theorem touches_of_takes (h0 : t 0 = some e0) (h1 : t 1 = some e1) (hr : Readable e0)
    (hw : Writable fs o.outPos e1) (htakes : Takes a (unread e0 fs o) xs) :
    ∃ fs' o', Touches t fs o a fs' o' := by
  generalize hrest : unread e0 fs o = rest at htakes
  cases htakes with
  | read =>
    rcases hr with rfl | ⟨f, rfl⟩
    · exact ⟨_, _, .readStdin h0 hrest⟩
    · refine ⟨_, _, .readFile h0 ?_⟩
      rw [← List.head?_drop]
      exact congrArg List.head? hrest
  | eof =>
    rcases hr with rfl | ⟨f, rfl⟩
    · exact ⟨_, _, .eofStdin h0 hrest⟩
    · exact ⟨_, _, .eofFile h0 (List.getElem?_eq_none_iff.mpr (List.drop_eq_nil_iff.mp hrest))⟩
  | write =>
    rcases hw with rfl | ⟨g, -, rfl | ⟨rfl, -⟩⟩
    · exact ⟨_, _, .writeStdout h1⟩
    · exact ⟨_, _, .writeFile h1⟩
    · exact ⟨_, _, .writeFile h1⟩
  | exit => exact ⟨_, _, .exit⟩

theorem delivered_nil (e : FileEnd) (fs : FileSystem) : delivered e fs [] = (fs, []) := by
  cases e <;> simp [delivered, setContent_self]

end Ends

section Start
variable {v : ArgVector} {ws : List Word} {fs : FileSystem}

theorem readable_stdinAfter (fs : FileSystem) (ws : List Word) : Readable (stdinAfter fs ws) := by
  simp only [stdinAfter]
  split
  · split_ifs
    · exact .inr ⟨_, rfl⟩
    · exact .inl rfl
  · exact .inl rfl

theorem writable_created (fs : FileSystem) (ws : List Word) :
    Writable (fs.afterCreate ws) 0 (createdStdout fs ws) := by
  cases hf : fileAfter greater ws with
  | none => exact .inl (by simp [createdStdout, hf])
  | some f =>
    by_cases hc : fs.canCreate f = true
    · have hempty := fs.emptied_content f
      obtain ⟨file, hfile, hnil⟩ := (Option.any_eq_true _ _).mp hempty
      refine .inr ⟨f, ?_, .inr ⟨by simp [createdStdout, hf, hc], ?_⟩⟩
      · simp [FileSystem.afterCreate, hf, hc, hfile]
      · have : file.content = [] := by simpa using hnil
        simp [FileSystem.content, FileSystem.afterCreate, hf, hc, hfile, this]
    · exact .inl (by simp [createdStdout, hf, hc])

theorem writable_stdoutAfter (fs : FileSystem) (ws : List Word) :
    Writable (fs.afterCreate ws) 0 (stdoutAfter fs ws) := by
  simp only [stdoutAfter, appendedStdout]
  split
  next g _ =>
    split_ifs with hw
    · exact .inr ⟨g, isSome_of_writable hw, .inl rfl⟩
    · exact writable_created fs ws
  next => exact writable_created fs ws

end Start

section Delivery
variable {P : Programs σ Char} {v : ArgVector} {fs : FileSystem} {input : List Char}
  {r r' : Filed σ} {a : Actor}

def given (fs : FileSystem) (ws : List Word) (input : List Char) : List Char :=
  unread (stdinAfter fs ws) (fs.afterCreate ws) ⟨0, 0, .fresh input, []⟩

structure Opened (v : ArgVector) (fs : FileSystem) (r : Filed σ) : Prop where
  stdin : r.shell.table 0 = some (stdinAfter fs v.words)
  stdout : r.shell.table 1 = some (stdoutAfter fs v.words)
  writable : Writable r.shell.fs r.offsets.outPos (stdoutAfter fs v.words)

def Gained (v : ArgVector) (fs : FileSystem) (out : List Char) (r : Filed σ) : Prop :=
  (r.shell.fs, r.offsets.stdout) = delivered (stdoutAfter fs v.words) (fs.afterCreate v.words) out

def FiledMain (P : Programs σ Char) (v : ArgVector) (fs : FileSystem) (input : List Char)
    (r : Filed σ) : Prop :=
  match r.shell.pc with
  | .start => FiledBoot fs input r
  | .redirExec => Opened v fs r ∧ r.shell.fs = fs.afterCreate v.words ∧
      r.offsets = ⟨0, 0, .fresh input, []⟩ ∧ words r.shell.tempargs = stripped v.words ∧
      r.shell.execs = []
  | .running p => Opened v fs r ∧ r.shell.execs = [stripped v.words] ∧
      ∃ out, Gained v fs out r ∧ ∀ ys,
        Produces P.io p (unread (stdinAfter fs v.words) r.shell.fs r.offsets) ys →
        Produces P.io (P.start v.pipeCounter) (given fs v.words input) (out ++ ys)
  | .exited => r.shell.execs = [stripped v.words] ∧ ∃ ys, Gained v fs ys r ∧
      Produces P.io (P.start v.pipeCounter) (given fs v.words input) ys
  | _ => False

structure FiledInv (P : Programs σ Char) (v : ArgVector) (fs : FileSystem) (input : List Char)
    (r : Filed σ) : Prop where
  unborn : ∀ j, (r.shell.stage j).pc = .unborn
  main : FiledMain P v fs input r

theorem numArgs_pos (hany : v.redirection.any = true) : 0 < v.numArgs := by
  rw [← v.length_words, List.length_pos_iff]
  intro hnil
  rw [v.redirection_any, hnil] at hany
  cases hany

section Steps
variable (hnamed : FileNamed v.words) (hany : v.redirection.any = true)
  (hexec : P.redirExec = true)
include hnamed hany hexec

theorem filed_quiet {s : State σ} (h : FiledInv P v fs input r) (hq : Quiet r.shell a)
    (hstep : Step P.world v r.shell a s) : FiledInv P v fs input { r with shell := s } := by
  obtain ⟨hunborn, hmain⟩ := h
  have hpos := numArgs_pos hany
  simp only [FiledMain] at hmain
  cases hstep with
  | redirect hpc _ hr =>
    rw [hpc] at hmain
    obtain ⟨hboot, rfl, hoff⟩ := hmain
    obtain ⟨fds, hin0, hin1, -, htable⟩ := hboot.table
    obtain ⟨rfl, hin, hout⟩ := redirections_effect hnamed (by rw [htable]; exact if_pos hin0)
      (by rw [htable]; exact if_pos hin1) hr
    refine ⟨hunborn, ⟨hin, hout, ?_⟩, rfl, hoff, redirections_tempargs hany hnamed hpos hr,
      hboot.execs⟩
    simp only [hoff]
    exact writable_stdoutAfter _ _
  | redirExec hpc =>
    rw [hpc] at hmain
    obtain ⟨hopen, hfs, hoff, hwords, hexecs⟩ := hmain
    refine ⟨hunborn, ?_⟩
    simp only [FiledMain, Programs.world, hexec, if_true]
    refine ⟨⟨hopen.stdin, hopen.stdout, hopen.writable⟩, by rw [hexecs, hwords]; rfl, [], ?_,
      fun ys hys => ?_⟩
    · simp only [Gained, hfs, hoff, delivered_nil]
    · rwa [hfs, hoff] at hys
  | plain _ hno => rw [hno] at hany; cases hany
  | run hpc _ _ => exact absurd hpc (hq _)
  | stageMove hm => simp [Stage.move, hunborn] at hm
  | stageExec hpc _ => rw [hunborn] at hpc; cases hpc
  | stageRun hpc _ _ => rw [hunborn] at hpc; cases hpc
  | pipe hpc _ _ _ _ => rw [hpc] at hmain; exact hmain.elim
  | nextArg hpc _ => rw [hpc] at hmain; exact hmain.elim
  | fork hpc => rw [hpc] at hmain; exact hmain.elim
  | waitpid hpc _ => rw [hpc] at hmain; exact hmain.elim
  | close hpc => rw [hpc] at hmain; exact hmain.elim
  | done hpc _ => rw [hpc] at hmain; exact hmain.elim
  | dupLast hpc => rw [hpc] at hmain; exact hmain.elim
  | lastArg hpc _ => rw [hpc] at hmain; exact hmain.elim
  | lastExec hpc _ => rw [hpc] at hmain; exact hmain.elim

omit hnamed hany hexec in
theorem filed_run {p q : σ} {act : Act Char} {fs' : FileSystem} {o : Offsets}
    (hsep : Separate (stdinAfter fs v.words) (stdoutAfter fs v.words))
    (h : FiledInv P v fs input r) (hpc : r.shell.pc = .running p) (hio : P.io p act q)
    (htouch : Touches r.shell.table r.shell.fs r.offsets act fs' o) :
    FiledInv P v fs input
      ⟨{ r.shell with pc := if kind act = .exit then .exited else .running q, fs := fs' }, o⟩ := by
  obtain ⟨hunborn, hmain⟩ := h
  simp only [FiledMain, hpc] at hmain
  obtain ⟨⟨h0, h1, hw⟩, hexecs, out, hout, hall⟩ := hmain
  obtain ⟨htakes, hw', hout'⟩ := htouch.carries h0 h1 hsep hw hout
  refine ⟨hunborn, ?_⟩
  by_cases hx : act = .exit
  · subst hx
    rw [if_pos ((kind_exit _).mpr rfl)]
    rw [show (Act.exit : Act Char).output = [] from rfl, List.append_nil] at hout'
    refine ⟨hexecs, out, hout', ?_⟩
    have := hall [] ⟨1, .exit hio⟩
    rwa [List.append_nil] at this
  · rw [if_neg (mt (kind_exit act).mp hx)]
    refine ⟨⟨h0, h1, hw'⟩, hexecs, _, hout', fun ys ⟨n, hys⟩ => ?_⟩
    rw [List.append_assoc]
    exact hall _ ⟨n + 1, .move hx hio htakes hys⟩

theorem filed_reachable (hsep : Separate (stdinAfter fs v.words) (stdoutAfter fs v.words))
    (hr : (filed P v fs input).Reachable r) : FiledInv P v fs input r := by
  refine hr.invariant (fun r h => ⟨h.shell.unborn, ?_⟩) fun r a r' _ h hstep => ?_
  · simp only [FiledMain, h.shell.pc]
    exact h
  · cases hstep with
    | shell hq hstep => exact filed_quiet hnamed hany hexec h hq hstep
    | run hpc hio htouch => exact filed_run hsep h hpc hio htouch

theorem filed_completes (hsep : Separate (stdinAfter fs v.words) (stdoutAfter fs v.words))
    {n : ℕ} {p : σ} {out xs ys : List Char} (heval : Evaluates P.io n p xs ys)
    (hr : (filed P v fs input).Reachable r) (hpc : r.shell.pc = .running p)
    (hxs : unread (stdinAfter fs v.words) r.shell.fs r.offsets = xs) (hout : Gained v fs out r) :
    ∃ r', (filed P v fs input).Reachable r' ∧ r'.shell.pc = .exited ∧ Gained v fs (out ++ ys) r' := by
  induction heval generalizing r out with
  | exit hio =>
    exact ⟨_, hr.step (.run hpc hio .exit), rfl, by rw [List.append_nil]; exact hout⟩
  | @move n p q act xs xs' ys hx hio htakes _ ih =>
    have hmain := (filed_reachable hnamed hany hexec hsep hr).main
    simp only [FiledMain, hpc] at hmain
    obtain ⟨⟨h0, h1, hw⟩, -, -⟩ := hmain
    rw [← hxs] at htakes
    obtain ⟨fs', o, htouch⟩ := touches_of_takes h0 h1 (readable_stdinAfter fs v.words) hw htakes
    obtain ⟨htakes', -, hout'⟩ := htouch.carries h0 h1 hsep hw hout
    have hrest := htakes'.unique htakes
    obtain ⟨r', hr', hx', hdone⟩ := ih (hr.step (.run hpc hio htouch))
      (if_neg (mt (kind_exit act).mp hx)) hrest hout'
    exact ⟨r', hr', hx', by rwa [List.append_assoc] at hdone⟩

theorem filed_starts (fs : FileSystem) (input : List Char) : ∃ r, (filed P v fs input).Reachable r ∧
      r.shell.pc = .running (P.start v.pipeCounter) ∧ r.shell.fs = fs.afterCreate v.words ∧
      r.offsets = ⟨0, 0, .fresh input, []⟩ := by
  have hboot := boot_with (σ := σ) fs
  obtain ⟨fds, fs', table, t, -, hred⟩ := redirections_total fs (inv_boot (v := v) hboot).bounded
    (bootWith fs : State σ).tempargs hnamed (numArgs_pos hany)
  obtain ⟨open0, h0, h1, -, htable⟩ := hboot.table
  obtain ⟨hfs, -⟩ := redirections_effect hnamed (by rw [htable]; exact if_pos h0)
    (by rw [htable]; exact if_pos h1) hred
  have hstart : (filed P v fs input).Reachable ⟨bootWith fs, ⟨0, 0, .fresh input, []⟩⟩ :=
    .init ⟨hboot, rfl, rfl⟩
  have hopened := hstart.step (.shell (a := .main) (fun p => by nofun) (.redirect hboot.pc hany hred))
  refine ⟨_, hopened.step (.shell (a := .main) (fun p => by nofun) (.redirExec rfl)), ?_, hfs, rfl⟩
  exact if_pos hexec

theorem redirected_delivers (hsep : Separate (stdinAfter fs v.words) (stdoutAfter fs v.words)) :
    (∀ r, (filed P v fs input).Reachable r → r.shell.pc = .exited →
      r.shell.execs = [stripped v.words] ∧ ∃ ys, Gained v fs ys r ∧
        Produces P.io (P.start v.pipeCounter) (given fs v.words input) ys) ∧
    ∀ ys, Produces P.io (P.start v.pipeCounter) (given fs v.words input) ys →
      ∃ r, (filed P v fs input).Reachable r ∧ r.shell.pc = .exited ∧ Gained v fs ys r := by
  constructor
  · intro r hr hx
    have hmain := (filed_reachable hnamed hany hexec hsep hr).main
    simp only [FiledMain, hx] at hmain
    exact hmain
  · rintro ys ⟨n, heval⟩
    obtain ⟨r, hr, hpc, hfs, hoff⟩ := filed_starts hnamed hany hexec fs input
    have hnone : Gained v fs [] r := by simp only [Gained, hfs, hoff, delivered_nil]
    exact filed_completes hnamed hany hexec hsep heval hr hpc (by rw [hfs, hoff]; rfl) hnone

end Steps

end Delivery

section Sample

inductive Once where
  | ready
  | holding (c : Char)
  | ended

inductive Once.Act : Once → Streams.Act Char → Once → Prop
  | read {c : Char} : Once.Act .ready (.read c) (.holding c)
  | write {c : Char} : Once.Act (.holding c) (.write c) .ended
  | exit : Once.Act .ended .exit .ended

theorem once_copies (c : Char) (xs : List Char) : Produces Once.Act .ready (c :: xs) [c] :=
  ⟨_, .move (by nofun) .read .read (.move (by nofun) .write .write (.exit .exit))⟩

def onces : Programs Once Char := ⟨fun _ => .ready, Once.Act, true, 1⟩

def onceOnto : ArgVector :=
  .ofWords [['o'], less, ['f'], append, ['g']] (by decide)

def twoFiles : FileSystem where
  file w := if w = ['f'] then some ⟨['b', 'c'], true, true⟩
    else if w = ['g'] then some ⟨['a'], true, true⟩ else none
  creatable _ := true

theorem once_delivered : ∃ r, (filed onces onceOnto twoFiles []).Reachable r ∧
    r.shell.pc = .exited ∧ r.shell.fs.content ['g'] = ['a', 'b'] := by
  have hin : stdinAfter twoFiles onceOnto.words = .file ['f'] .read := rfl
  have hout : stdoutAfter twoFiles onceOnto.words = .file ['g'] .append := rfl
  have hsep : Separate (stdinAfter twoFiles onceOnto.words) (stdoutAfter twoFiles onceOnto.words) := by
    rw [hin, hout]
    intro f m m' h h'
    cases h
    cases h'
  have hruns (ys : List Char) : Produces Once.Act .ready (given twoFiles onceOnto.words []) ys →
      ∃ r, (filed onces onceOnto twoFiles []).Reachable r ∧ r.shell.pc = .exited ∧
        Gained onceOnto twoFiles ys r :=
    (redirected_delivers (P := onces) (by decide) (by decide) rfl hsep).2 ys
  obtain ⟨r, hr, hx, hw⟩ := hruns ['b'] (once_copies 'b' ['c'])
  refine ⟨r, hr, hx, ?_⟩
  rw [Gained, hout] at hw
  obtain ⟨hfs, -⟩ := Prod.mk.inj hw
  rw [hfs, content_setContent rfl]
  rfl

end Sample
end Shell
