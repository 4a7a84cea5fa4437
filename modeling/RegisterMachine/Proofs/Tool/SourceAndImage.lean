import RegisterMachine.Proofs.Machine.Clock
import RegisterMachine.Proofs.Program.Stored
import RegisterMachine.Proofs.Tool.Folder
import RegisterMachine.Tool.AssembleCommand
import RegisterMachine.Tool.Desk
import RegisterMachine.Tool.RunCommand

/-! Running a source text and running its image.

What running a program comes to, its exit code and its output, does not depend on the path that
it came from (`playTicking_start`). The assembler leaves the image where the run command finds it,
and the source text as it was (`Assembles.left`), so both files lead to the same program and, if
its run does not read the clock, to the same run (`image_runs_as_source`). -/
namespace RegisterMachine

/-! ### Desks with a clock -/

/-- The machine on a console with this input. -/
def Machine.facing (m : Machine) (input : List UInt8) : Machine :=
  { m with console := .ofBytes input }

namespace Desk

/-- Runs a machine while the clock goes on. -/
def sessionTicking (d : Desk) (tick : Nat → UInt32 → UInt32) (limit : Nat) (m : Machine)
    (report : Event → String) : Session × Desk :=
  let (m, outcome, events) := (m.facing d.input).runTicking tick #[] limit
  (⟨outcome, d.clock⟩,
    { d with
      input := []
      output := d.output ++ m.console.output
      errors := d.errors ++ String.join (events.toList.map report) })

/-- Carries a script out while the clock of every machine goes on. -/
def playTicking (tick : Nat → UInt32 → UInt32) (limit : Nat) : Script → Desk → UInt8 × Desk
  | .exit code, d => (code, d)
  | .print bytes next, d => playTicking tick limit next { d with output := d.output ++ bytes }
  | .complain text next, d => playTicking tick limit next { d with errors := d.errors ++ text }
  | .find path next, d => playTicking tick limit (next (d.folder.find path).isOk) d
  | .read path next, d => playTicking tick limit (next (d.folder.read path)) d
  | .write path bytes next, d =>
    match d.folder.write path bytes with
    | .ok folder => playTicking tick limit (next (.ok ())) { d with folder }
    | .error e => playTicking tick limit (next (.error e)) d
  | .run m report next, d =>
    let (session, d) := d.sessionTicking tick limit m report
    playTicking tick limit (next session) d

variable {tick : Nat → UInt32 → UInt32} {limit : Nat} {d : Desk}

/-- Where the clocks stand still. -/
theorem playTicking_still (limit : Nat) (s : Script) (d : Desk) :
    playTicking (fun _ clock => clock) limit s d = play limit s d := by
  induction s generalizing d with
  | exit code => rfl
  | print bytes next ih => exact ih _
  | complain text next ih => exact ih _
  | find path next ih => exact ih _ _
  | read path next ih => exact ih _ _
  | write path bytes next ih =>
    rw [playTicking, play]
    cases d.folder.write path bytes with
    | ok folder => exact ih _ _
    | error e => exact ih _ _
  | run m report next ih =>
    have hsession : d.sessionTicking (fun _ clock => clock) limit m report =
        d.session limit m report := by
      rw [sessionTicking, session, Machine.runTicking_still]
      rfl
    rw [playTicking, play, hsession]
    exact ih _ _

/-- The exit code of a script and the output after it. -/
def shown (r : UInt8 × Desk) : UInt8 × List UInt8 := (r.1, r.2.output)

theorem playTicking_report (tick : Nat → UInt32 → UInt32) (limit : Nat) (d : Desk)
    (least level : Level) (text : String) (next : Script) :
    ∃ errors, playTicking tick limit (Script.report least level text next) d =
      playTicking tick limit next { d with errors } := by
  unfold Script.report
  split
  · exact ⟨_, rfl⟩
  · exact ⟨d.errors, rfl⟩

theorem playTicking_reportAll (tick : Nat → UInt32 → UInt32) (limit : Nat) (d : Desk)
    (least : Level) (events : List Event) (next : Script) :
    ∃ errors, playTicking tick limit (Script.reportAll least events next) d =
      playTicking tick limit next { d with errors } := by
  induction events generalizing d with
  | nil => exact ⟨d.errors, rfl⟩
  | cons e rest ih =>
    obtain ⟨errors, hfirst⟩ := playTicking_report tick limit d least e.level e.text
      (Script.reportAll least rest next)
    obtain ⟨errors', hrest⟩ := ih { d with errors }
    exact ⟨errors', hfirst.trans hrest⟩

theorem playTicking_need {path : String} {entry : FolderEntry} (h : d.folder.find path = .ok entry)
    (next : Script) :
    playTicking tick limit (Script.need path next) d = playTicking tick limit next d := by
  rw [Script.need, playTicking, h]
  rfl

end Desk

/-! ### What running a program comes to -/

/-- The exit code for a run that came to this. -/
def Outcome.code : Outcome → UInt8
  | .exited _ => 0
  | _ => 1

namespace Program

open Desk

variable {p : Program} {config : Config} {input : List UInt8} {tick : Nat → UInt32 → UInt32}
  {limit : Nat}

/-- The machine that a program is run on, if it comes to that, with its input. -/
def started? (p : Program) (config : Config) (input : List UInt8) : Option Machine :=
  match Machine.create config with
  | .error _ => none
  | .ok (m, _) =>
    match m.load p with
    | (_, .error _, _) => none
    | (m, .ok (), _) => some (m.facing input)

/-- The exit code and the output of a run. -/
def verdict (p : Program) (config : Config) (input : List UInt8) (tick : Nat → UInt32 → UInt32)
    (limit : Nat) : UInt8 × List UInt8 :=
  match p.started? config input with
  | none => (1, [])
  | some m =>
    let (m, outcome, _) := m.runTicking tick #[] limit
    (outcome.code, m.console.output)

/-- The run does not read the clock. -/
def IgnoresClock (p : Program) (config : Config) (input : List UInt8)
    (tick : Nat → UInt32 → UInt32) (limit : Nat) : Prop :=
  ∀ m ∈ p.started? config input, m.IgnoresClock tick limit

instance (p : Program) (config : Config) (input : List UInt8) (tick : Nat → UInt32 → UInt32)
    (limit : Nat) : Decidable (p.IgnoresClock config input tick limit) :=
  inferInstanceAs (Decidable (∀ m ∈ p.started? config input, m.IgnoresClock tick limit))

theorem verdict_of_ignores (h : p.IgnoresClock config input tick limit)
    (tick' : Nat → UInt32 → UInt32) :
    p.verdict config input tick' limit = p.verdict config input tick limit := by
  unfold verdict
  cases hstarted : p.started? config input with
  | none => rfl
  | some m =>
    obtain ⟨ended, hended⟩ := Machine.runTicking_of_ignores m.clock (h m hstarted) tick' #[]
    have hsame : m.timed m.clock = m := rfl
    rw [hsame] at hended
    dsimp only
    rw [hended]
    rfl

theorem playTicking_run (o : RunOptions) (m : Machine) (d : Desk) {m' : Machine}
    {outcome : Outcome} {events : Array Event}
    (hrun : (m.facing d.input).runTicking tick #[] limit = (m', outcome, events)) :
    shown (playTicking tick limit (RunCommand.run o m) d) =
      (outcome.code, d.output ++ m'.console.output) := by
  rw [RunCommand.run, playTicking, sessionTicking, hrun]
  cases outcome with
  | failed _ | suspended | exhausted => rfl
  | exited reason =>
    obtain ⟨errors, hreport⟩ := playTicking_report tick limit
      { d with
        input := []
        output := d.output ++ m'.console.output
        errors := d.errors ++ String.join (events.toList.map (Event.line o.least)) }
      o.least .info s!"VM {reason.text} after {d.clock} ms" (.exit 0)
    exact congrArg shown hreport

/-- The path that a program came from shows in messages only. -/
theorem playTicking_start (o : RunOptions) (path : String) (p : Program) (d : Desk) :
    shown (playTicking tick limit (RunCommand.start o path p) d) =
      ((p.verdict o.config d.input tick limit).1,
        d.output ++ (p.verdict o.config d.input tick limit).2) := by
  unfold RunCommand.start verdict started?
  cases Machine.create o.config with
  | error e => exact congrArg (Prod.mk 1) (List.append_nil d.output).symm
  | ok created =>
    obtain ⟨m, events⟩ := created
    dsimp only
    obtain ⟨errors, hcreated⟩ := playTicking_reportAll tick limit d o.least events
      (match m.load p with
        | (_, .error e, _) => Script.fail s!"Failed to load {path}: {e.message}"
        | (m, .ok (), events) => Script.reportAll o.least events (RunCommand.run o m))
    refine (congrArg shown hcreated).trans ?_
    obtain ⟨loaded, answer, events⟩ := m.load p
    cases answer with
    | error e => exact congrArg (Prod.mk 1) (List.append_nil d.output).symm
    | ok _ =>
      dsimp only
      obtain ⟨errors', hloaded⟩ := playTicking_reportAll tick limit { d with errors } o.least
        events (RunCommand.run o loaded)
      refine (congrArg shown hloaded).trans ?_
      obtain ⟨m', outcome, events, hrun⟩ : ∃ m' outcome events,
          (loaded.facing d.input).runTicking tick #[] limit = (m', outcome, events) :=
        ⟨_, _, _, rfl⟩
      rw [playTicking_run o loaded { d with errors := errors' } hrun, hrun]

end Program

/-! ### Programs in files -/

namespace Desk

variable {d : Desk} {tick : Nat → UInt32 → UInt32} {limit : Nat} {path source : String}
  {bytes : List UInt8} {p : Program}

theorem playTicking_assembleFile (hread : d.folder.read path = .ok bytes)
    (htext : Text.ofUtf8? bytes = some source)
    (hassemble : Program.assemble source programStart = .ok p) (next : Program → Script) :
    playTicking tick limit (Script.assembleFile path next) d =
      playTicking tick limit (next p) d := by
  rw [Script.assembleFile, playTicking, hread, toOption_ok, Option.bind_some, htext]
  dsimp only
  rw [hassemble]

theorem playTicking_readImage (hread : d.folder.read path = .ok bytes)
    (himage : Program.ofImage bytes = .ok p) (next : Program → Script) :
    playTicking tick limit (Script.readImage path next) d = playTicking tick limit (next p) d := by
  rw [Script.readImage, playTicking, hread]
  dsimp only
  rw [himage]

end Desk

/-! ### The assembler command -/

namespace AssembleCommand

theorem parse_help {o : AssembleOptions} {first : String} (h : first = "--help" ∨ first = "-h")
    (rest : List String) : parse o (first :: rest) = .error (.unexpected first) := by
  unfold parse
  rcases h with rfl | rfl
  · rw [if_neg (by decide), if_neg (by decide), if_neg (fun h => absurd rfl h.2)]
  · rw [if_neg (by decide), if_neg (by decide), if_neg (fun h => absurd rfl h.2)]

/-- No input begins with a dash. -/
theorem input_of_parse {o o' : AssembleOptions} {arguments : List String}
    (h : parse o arguments = .ok o') (hold : ∀ input ∈ o.input, input.toList.head? ≠ some '-') :
    ∀ input ∈ o'.input, input.toList.head? ≠ some '-' := by
  fun_induction parse o arguments with
  | case1 o =>
    obtain rfl := Except.ok.inj h
    exact hold
  | case2 => cases h
  | case3 o first _ path rest ih => exact ih h hold
  | case4 o first rest _ _ ih => exact ih h hold
  | case5 o first rest _ _ hnew ih =>
    refine ih h fun input hinput => ?_
    obtain rfl := Option.some.inj hinput
    exact hnew.2
  | case6 => cases h

theorem script_of_parse {name input : String} {least : Level} {arguments : List String}
    {output : Option String} (h : parse ⟨none, none, false⟩ arguments =
      .ok ⟨some input, output, false⟩) :
    script name least arguments = Script.need input (
      needFolder (output.getD (Path.withExtension input "bin"))
        (Script.assembleFile input
          (writeImage least input (output.getD (Path.withExtension input "bin"))))) := by
  cases arguments with
  | nil => cases h
  | cons first rest =>
    have hfirst : ¬(first = "--help" ∨ first = "-h") := fun hhelp => by
      rw [parse_help hhelp] at h
      cases h
    rw [script, Script.command, if_neg hfirst, body, h]
    rfl

end AssembleCommand

namespace Desk

variable {d : Desk} {tick : Nat → UInt32 → UInt32} {limit : Nat}

theorem playTicking_needFolder {output : String} {next : Script}
    (h : (playTicking tick limit (AssembleCommand.needFolder output next) d).1 = 0) :
    playTicking tick limit (AssembleCommand.needFolder output next) d =
      playTicking tick limit next d := by
  unfold AssembleCommand.needFolder at h ⊢
  cases hparent : Path.parent? output with
  | none => rfl
  | some folder =>
    rw [hparent] at h
    dsimp only at h ⊢
    by_cases hempty : folder.isEmpty = true
    · rw [if_pos hempty]
    · rw [if_neg hempty] at h ⊢
      rw [playTicking] at h ⊢
      by_cases hfound : (d.folder.find folder).isOk = true
      · rw [if_pos hfound]
      · rw [if_neg hfound] at h
        cases h

theorem folder_of_writeImage {least : Level} {input output : String} {p : Program} {d' : Desk}
    (h : playTicking tick limit (AssembleCommand.writeImage least input output p) d = (0, d')) :
    d.folder.write output p.image = .ok d'.folder := by
  rw [AssembleCommand.writeImage, playTicking] at h
  cases hwrite : d.folder.write output p.image with
  | error e =>
    rw [hwrite] at h
    cases h
  | ok folder =>
    rw [hwrite] at h
    dsimp only at h
    obtain ⟨errors, hreport⟩ := playTicking_report tick limit { d with folder } least .info
      (s!"Assembled {input} -> {output} "
        ++ s!"({p.size} bytes of code and data, {p.labels.size} labels)") (.exit 0)
    obtain ⟨-, hdesk⟩ := Prod.mk.inj (hreport.symm.trans h)
    rw [← hdesk]

end Desk

/-! ### One program, two files -/

/-- The path that the assembler writes to, given the one asked for. -/
def imagePath (input : String) (chosen : Option String) : String :=
  chosen.getD (Path.withExtension input "bin")

/-- The assembler, run on the desk `d` without a complaint, has left `d'`. It was given a file with
this source text, which is not named as an image, and any path asked for is named as one. -/
structure Assembles (d : Desk) (input source : String) (chosen : Option String) (d' : Desk) :
    Prop where
  text : ∃ bytes, d.folder.read input = .ok bytes ∧ Text.ofUtf8? bytes = some source
  plain : Path.extension? input ≠ some "bin"
  asked : ∀ path ∈ chosen, Path.extension? path = some "bin"
  ran : ∃ name least arguments limit,
    AssembleCommand.parse ⟨none, none, false⟩ arguments = .ok ⟨some input, chosen, false⟩ ∧
      d.play limit (AssembleCommand.script name least arguments) = (0, d')

namespace Assembles

variable {d d' : Desk} {input source : String} {chosen : Option String} {p : Program}

theorem extension?_imagePath (h : Assembles d input source chosen d') :
    Path.extension? (imagePath input chosen) = some "bin" := by
  cases hchosen : chosen with
  | some path => exact h.asked path hchosen
  | none =>
    obtain ⟨bytes, hread, -⟩ := h.text
    obtain ⟨name, hname⟩ := Folder.name?_of_read hread
    exact Path.extension?_withExtension hname (by decide) (by decide)

theorem written (h : Assembles d input source chosen d')
    (hassemble : Program.assemble source programStart = .ok p) :
    d.folder.write (imagePath input chosen) p.image = .ok d'.folder := by
  obtain ⟨bytes, hread, htext⟩ := h.text
  obtain ⟨name, least, arguments, limit, hparse, hplay⟩ := h.ran
  rw [← Desk.playTicking_still, AssembleCommand.script_of_parse hparse,
    Desk.playTicking_need (Folder.read_ok_iff.mp hread)] at hplay
  rw [Desk.playTicking_needFolder (congrArg Prod.fst hplay),
    Desk.playTicking_assembleFile hread htext hassemble] at hplay
  exact Desk.folder_of_writeImage hplay

/-- Both files are there when the assembler is done. -/
theorem left (h : Assembles d input source chosen d')
    (hassemble : Program.assemble source programStart = .ok p) :
    (∃ bytes, d'.folder.read input = .ok bytes ∧ Text.ofUtf8? bytes = some source) ∧
      d'.folder.read (imagePath input chosen) = .ok p.image := by
  obtain ⟨bytes, hread, htext⟩ := h.text
  have hwritten := h.written hassemble
  have hextension := h.extension?_imagePath
  refine ⟨⟨bytes, Folder.read_write_of_ne hwritten hread fun hname => ?_, htext⟩,
    Folder.read_write hwritten fun hname => ?_⟩
  · refine h.plain ?_
    rw [← hextension, Path.extension?, hname]
    rfl
  · rw [Path.extension?, hname] at hextension
    exact absurd hextension (by decide +kernel)

/-- Neither path is taken for a plea for help. -/
theorem no_help (h : Assembles d input source chosen d') {path : String}
    (hpath : path = input ∨ path = imagePath input chosen) : ¬(path = "--help" ∨ path = "-h") := by
  intro hhelp
  rcases hpath with rfl | rfl
  · obtain ⟨_, _, arguments, _, hparse, -⟩ := h.ran
    have hdash := AssembleCommand.input_of_parse hparse
      (fun _ hnone => absurd hnone (Option.not_mem_none _)) path rfl
    rcases hhelp with rfl | rfl <;> exact hdash rfl
  · have hextension := h.extension?_imagePath
    have hnone : Path.extension? "--help" = none ∧ Path.extension? "-h" = none :=
      ⟨by cbv, by cbv⟩
    rcases hhelp with heq | heq
    · rw [heq, hnone.1] at hextension
      cases hextension
    · rw [heq, hnone.2] at hextension
      cases hextension

end Assembles

namespace Desk

variable {d : Desk} {tick : Nat → UInt32 → UInt32} {limit : Nat} {name path source : String}
  {least : Level} {options : List String} {o : RunOptions} {p : Program}

theorem run_script_of_parse (hpath : ¬(path = "--help" ∨ path = "-h"))
    (hparse : RunCommand.parse ⟨Config.default, least⟩ options = .ok o) :
    RunCommand.script name least (path :: options) = Script.need path (
      if Path.extension? path = some "bin" then Script.readImage path (RunCommand.start o path)
      else Script.assembleFile path (RunCommand.start o path)) := by
  rw [RunCommand.script, Script.command, if_neg hpath, RunCommand.body, hparse]

theorem shown_run_source {bytes : List UInt8} (hread : d.folder.read path = .ok bytes)
    (htext : Text.ofUtf8? bytes = some source)
    (hassemble : Program.assemble source programStart = .ok p)
    (hextension : Path.extension? path ≠ some "bin") (hpath : ¬(path = "--help" ∨ path = "-h"))
    (hparse : RunCommand.parse ⟨Config.default, least⟩ options = .ok o) :
    shown (playTicking tick limit (RunCommand.script name least (path :: options)) d) =
      ((p.verdict o.config d.input tick limit).1,
        d.output ++ (p.verdict o.config d.input tick limit).2) := by
  rw [run_script_of_parse hpath hparse, if_neg hextension,
    playTicking_need (Folder.read_ok_iff.mp hread),
    playTicking_assembleFile hread htext hassemble, Program.playTicking_start]

theorem shown_run_image {bytes : List UInt8} (hread : d.folder.read path = .ok bytes)
    (himage : Program.ofImage bytes = .ok p)
    (hextension : Path.extension? path = some "bin") (hpath : ¬(path = "--help" ∨ path = "-h"))
    (hparse : RunCommand.parse ⟨Config.default, least⟩ options = .ok o) :
    shown (playTicking tick limit (RunCommand.script name least (path :: options)) d) =
      ((p.verdict o.config d.input tick limit).1,
        d.output ++ (p.verdict o.config d.input tick limit).2) := by
  rw [run_script_of_parse hpath hparse, if_pos hextension,
    playTicking_need (Folder.read_ok_iff.mp hread), playTicking_readImage hread himage,
    Program.playTicking_start]

/-- **Running a source text and running its image are the same.** A program that is assembled, at
any origin, can be stored if its image is smaller than `2 ^ 32` bytes, and is read back from the
image as it was. Once the assembler has written the image of a file, the run command gives for both
files the same exit code and the same output, whatever its options and its input are: those of the
program's run. The clocks may differ, as long as the run does not read them. -/
theorem image_runs_as_source {origin : UInt32} (hassemble : Program.assemble source origin = .ok p)
    (himage : p.image.length < 2 ^ 32) :
    (p.Storable ∧ p.labels.Lower ∧ Program.ofImage p.image = .ok p) ∧
      (origin = programStart → ∀ (d d' : Desk) (input : String) (chosen : Option String),
        Assembles d input source chosen d' →
        ∀ (name : String) (least : Level) (options : List String) (o : RunOptions),
          RunCommand.parse ⟨Config.default, least⟩ options = .ok o →
          ∀ (stdin : List UInt8) (limit : Nat) (tick : Nat → UInt32 → UInt32),
            p.IgnoresClock o.config stdin tick limit →
            ∀ (tick' : Nat → UInt32 → UInt32) (elapsed elapsed' : String),
              let run (tick : Nat → UInt32 → UInt32) (elapsed path : String) :=
                shown (playTicking tick limit (RunCommand.script name least (path :: options))
                  ⟨d'.folder, stdin, elapsed, [], ""⟩)
              run tick elapsed input = run tick' elapsed' (imagePath input chosen) ∧
                run tick elapsed input = p.verdict o.config stdin tick limit) := by
  obtain ⟨hstorable, hlower⟩ := Program.storable_of_assemble hassemble himage
  have hback := Program.ofImage_of_assemble hassemble himage
  refine ⟨⟨hstorable, hlower, hback⟩, ?_⟩
  rintro rfl d d' input chosen h name least options o hparse stdin limit tick hignores tick'
    elapsed elapsed' run
  obtain ⟨⟨bytes, hsource, htext⟩, hwritten⟩ := h.left hassemble
  have hrun : run tick elapsed input = p.verdict o.config stdin tick limit :=
    shown_run_source (d := ⟨d'.folder, stdin, elapsed, [], ""⟩) hsource htext hassemble h.plain
      (h.no_help (.inl rfl)) hparse
  refine ⟨?_, hrun⟩
  rw [hrun, ← Program.verdict_of_ignores hignores tick']
  exact (shown_run_image (d := ⟨d'.folder, stdin, elapsed', [], ""⟩) hwritten hback
    h.extension?_imagePath (h.no_help (.inr rfl)) hparse).symm

/-- A source text that writes a byte. -/
def greeting : String := "loadbytei r1, 104; putchar r1; halt;"

/-- A desk with this text in a file. -/
def greetingDesk : Desk := ⟨⟨[(["p.asm"], Text.utf8 greeting)]⟩, [], "", [], ""⟩

theorem assembles_greeting (h : Program.assemble greeting programStart = .ok p) :
    ∃ d', Assembles greetingDesk "p.asm" greeting none d' := by
  have hread : greetingDesk.folder.read "p.asm" = .ok (Text.utf8 greeting) := by cbv
  have hplain : Path.extension? "p.asm" = some "asm" := by cbv
  have hparse : AssembleCommand.parse ⟨none, none, false⟩ ["p.asm"] =
      .ok ⟨some "p.asm", none, false⟩ := by decide +kernel
  have hparent : Path.parent? "p.bin" = some "" := by cbv
  have hwrite : greetingDesk.folder.write "p.bin" p.image =
      .ok ⟨greetingDesk.folder.files ++ [(["p.bin"], p.image)]⟩ := by cbv
  have hpath : (none : Option String).getD (Path.withExtension "p.asm" "bin") = "p.bin" := by cbv
  refine ⟨{ greetingDesk with folder := ⟨greetingDesk.folder.files ++ [(["p.bin"], p.image)]⟩ },
    ⟨_, hread, Text.ofUtf8?_utf8 greeting⟩, ?_, fun _ hnone => absurd hnone (Option.not_mem_none _),
    "assemble", .error, ["p.asm"], 0, hparse, ?_⟩
  · rw [hplain]
    decide
  · rw [← playTicking_still, AssembleCommand.script_of_parse hparse, hpath,
      playTicking_need (Folder.read_ok_iff.mp hread)]
    unfold AssembleCommand.needFolder
    rw [hparent]
    dsimp only
    rw [if_pos (by decide), playTicking_assembleFile hread (Text.ofUtf8?_utf8 greeting) h,
      AssembleCommand.writeImage, playTicking, hwrite]
    rfl

/-- With a clock that goes on in the one run and stands still in the other. -/
theorem image_runs_as_source_greeting :
    ∃ p d', Program.assemble greeting programStart = .ok p ∧ p.Storable ∧
      Assembles greetingDesk "p.asm" greeting none d' ∧
      let run (tick : Nat → UInt32 → UInt32) (path : String) :=
        shown (playTicking tick 4
          (RunCommand.script "run" .info [path, "--memory", "512", "--no-handlers"])
          ⟨d'.folder, [], "0", [], ""⟩)
      run (fun n _ => UInt32.ofNat n) "p.asm" = (0, [104]) ∧
        run (fun _ clock => clock) (imagePath "p.asm" none) = (0, [104]) := by
  let config : Config := { Config.default with memorySize := 512, defaultHandlers := false }
  have hprogram : ∃ p ∈ (Program.assemble greeting programStart).toOption,
      p.image.length < 2 ^ 32 ∧ p.IgnoresClock config [] (fun n _ => UInt32.ofNat n) 4 ∧
        p.verdict config [] (fun n _ => UInt32.ofNat n) 4 = (0, [104]) := by decide +kernel
  obtain ⟨p, hp, himage, hignores, hverdict⟩ := hprogram
  have hassemble := ok_of_toOption hp
  obtain ⟨d', hassembles⟩ := assembles_greeting hassemble
  have hparse : RunCommand.parse ⟨Config.default, .info⟩ ["--memory", "512", "--no-handlers"] =
      .ok ⟨config, .info⟩ := by decide +kernel
  obtain ⟨⟨hstorable, -⟩, hruns⟩ := image_runs_as_source hassemble himage
  obtain ⟨hsame, hrun⟩ := hruns rfl _ _ _ _ hassembles "run" .info _ _ hparse [] 4 _ hignores
    (fun _ clock => clock) "0" "0"
  exact ⟨p, d', hassemble, hstorable, hassembles, hrun.trans hverdict,
    hsame.symm.trans (hrun.trans hverdict)⟩

end Desk
end RegisterMachine
