import LineLisp.CommandLine
import LineLisp.Proofs.Scripts
import LineLisp.Proofs.Trimming

/-!
# Expressions as arguments and in files

An expression can be given as an argument or as the one line of a file. The program evaluates the
argument as it is, and the line after it was read from bytes, decoded and trimmed. Both ways lead to
the same exit code and output; only the message of an error tells the way.
-/

namespace LineLisp

open Text

/-! ## Arguments -/

theorem Argument.ofString_separator : ofString "--" = .separator := by decide +kernel

/-- After the separator every argument is positional, whatever options stand before it. -/
theorem Options.scan_append_separator {flags : List String}
    (h : ∀ arg ∈ flags, Argument.ofString arg ≠ .separator) (opts : Options) (args : List String) :
    opts.scan (flags ++ "--" :: args) = opts.scan flags >>= args.foldlM setContents := by
  fun_induction scan opts flags with
  | case1 opts =>
    simp only [List.nil_append, scan.eq_def opts, Argument.ofString_separator]
    rfl
  | case2 opts arg rest harg => exact absurd harg (h arg (by simp))
  | case3 opts arg rest text harg ih =>
    rw [List.forall_mem_cons] at h
    simp only [List.cons_append, scan.eq_def opts, harg, ih _ h.2, bind_assoc]
  | case4 opts arg rest letters harg ih =>
    rw [List.forall_mem_cons] at h
    simp only [List.cons_append, scan.eq_def opts, harg, ih _ h.2, bind_assoc]
  | case5 opts arg harg =>
    -- The separator is no text for the prompt.
    simp only [List.cons_append, scan.eq_def opts, harg]
    rfl
  | case6 opts arg harg next rest text hnext ih =>
    simp only [List.forall_mem_cons] at h
    simp only [List.cons_append, scan.eq_def opts, harg, hnext, ih _ h.2.2, bind_assoc]
  | case7 opts arg harg next rest hnext =>
    simp only [List.cons_append, scan.eq_def opts, harg]
    rfl
  | case8 opts arg rest name value hname harg ih =>
    rw [List.forall_mem_cons] at h
    simp only [List.cons_append, scan.eq_def opts, harg, ih _ h.2, bind_assoc]

theorem Options.scan_append_contents {flags : List String} {opts : Options}
    (h : ∀ arg ∈ flags, Argument.ofString arg ≠ .separator) (hscan : scan {} flags = .ok opts)
    (hcontents : opts.contents = none) (text : String) :
    scan {} (flags ++ ["--", text]) = .ok { opts with contents := some text } := by
  have hset : opts.setContents text = .ok { opts with contents := some text } := by
    simp [setContents, hcontents]
  have hfold : [text].foldlM setContents opts = .ok { opts with contents := some text } := by
    rw [List.foldlM_cons, hset]
    rfl
  rw [scan_append_separator h, hscan]
  exact hfold

/-- The arguments are options that ask for a script, but do not tell which. -/
def AsksForFile (flags : List String) : Prop :=
  (∀ arg ∈ flags, Argument.ofString arg ≠ .separator) ∧
    ∃ opts, Options.scan {} flags = .ok opts ∧ opts.file ∧ opts.contents = none

theorem AsksForFile.exists_script {flags : List String} (h : AsksForFile flags) (path : String) :
    ∃ quiet, Invocation.ofArguments (flags ++ ["--", path]) = .ok (.script path quiet) := by
  obtain ⟨hflags, opts, hscan, hfile, hcontents⟩ := h
  refine ⟨opts.quiet, ?_⟩
  simp [Invocation.ofArguments, Options.scan_append_contents hflags hscan hcontents,
    Invocation.ofOptions, hfile, Except.mapError]

example : AsksForFile ["-q", "-f"] ∧ AsksForFile ["--prompt", "> ", "-fq"] :=
  ⟨⟨by decide +kernel, { file := true, quiet := true }, by decide +kernel, rfl, rfl⟩,
    by decide +kernel, { file := true, quiet := true, prompt := "> " }, by decide +kernel, rfl, rfl⟩

theorem Invocation.ofArguments_separator (source : String) :
    ofArguments ["--", source] = .ok (.evaluate source) := by
  have hnone : ∀ arg ∈ ([] : List String), Argument.ofString arg ≠ .separator := by simp
  have hscan := Options.scan_append_contents hnone rfl rfl source
  rw [List.nil_append] at hscan
  simp [ofArguments, hscan, ofOptions, Except.mapError]

/-! ## A script of one line -/

/-- A text without a newline is one line. -/
theorem Input.lines_ofText {s : String} (hnewline : '\n' ∉ s.toList) (hblank : ¬ IsGap s) :
    (ofText s).lines = [trim s] := by
  have hbytes : s.toUTF8.data.toList ≠ [] := by
    intro hnil
    have hempty : s = "" := by
      rw [← decodeLossy_toUTF8 s, hnil]
      rfl
    exact hblank (by simp [hempty, IsGap])
  have hlines := lines_ofBytes_of_notMem (newline_notMem_toUTF8 hnewline) hbytes
  rwa [lineText, decodeLossy_toUTF8] at hlines

theorem ScriptError.message_line_one (e : Error) :
    (line 1 e).message = "Error on line 1: " ++ e.message := by
  have hmessage (number : Nat) :
      (line number e).message = "Error on line " ++ number.repr ++ ": " ++ e.message := rfl
  have hnumber : "Error on line " ++ (1).repr ++ ": " = "Error on line 1: " := by decide +kernel
  rw [hmessage, hnumber]

namespace Script

variable {source : String} (hnewline : '\n' ∉ source.toList) (hblank : ¬ IsGap source)
include hnewline hblank

/-- A script of one line writes its value, quiet or not. -/
theorem run_line {session session' : Session} {v : Value}
    (heval : (Session.eval (trim source)).run session = .ok v session') (quiet : Bool) :
    Yields (run quiet (.ofText source)) session (.ok (some v)) (v.render ++ "\n") session' := by
  have hloop : Yields (loop quiet none 1 none [trim source]) session (.ok (some v)) _ session' :=
    loop_cons (trim_ne_empty hblank) heval (loop_nil quiet 2 (some v) session')
  rw [run, Input.lines_ofText hnewline hblank]
  cases quiet <;> simpa [Input.ofText] using hloop

theorem run_line_error {session session' : Session} {e : Error}
    (heval : (Session.eval (trim source)).run session = .error e session') (quiet : Bool) :
    Yields (run quiet (.ofText source)) session (.error (.line 1 e)) "" session' := by
  rw [run, Input.lines_ofText hnewline hblank]
  exact loop_cons_error (trim_ne_empty hblank) heval

end Script

namespace CommandLine

variable {openFile : String → Option Input} {source path : String}

/-- The report on a script of one line. It does not tell whether the run is quiet. -/
theorem run_file {flags : List String} (hflags : AsksForFile flags)
    (hnewline : '\n' ∉ source.toList) (hblank : ¬ IsGap source)
    (hopen : openFile path = some (.ofText source)) (stdin : Input) :
    run (flags ++ ["--", path]) stdin openFile =
      match (Session.eval (trim source)).run ∅ with
      | .ok v _ => ⟨0, (v.render ++ "\n").toUTF8, ""⟩
      | .error e _ => ⟨1, .empty, "Error on line 1: " ++ e.message ++ "\n"⟩ := by
  obtain ⟨quiet, hscript⟩ := hflags.exists_script path
  simp only [run, hscript, perform, hopen]
  cases heval : (Session.eval (trim source)).run ∅ with
  | ok v session =>
    have hrun := Script.run_line hnewline hblank heval quiet .empty
    simp only [hrun, report, ByteArray.empty_append]
  | error e session =>
    have hrun := Script.run_line_error hnewline hblank heval quiet .empty
    simp only [hrun, report, ByteArray.empty_append, ScriptError.message_line_one]
    rfl

theorem run_argument (source : String) (stdin : Input) (openFile : String → Option Input) :
    run ["--", source] stdin openFile =
      match (Session.eval source).run ∅ with
      | .ok v _ => ⟨0, (v.render ++ "\n").toUTF8, ""⟩
      | .error e _ => ⟨1, .empty, e.message ++ "\n"⟩ := by
  rw [run, Invocation.ofArguments_separator]
  rfl

theorem asksForFile_file : AsksForFile ["-f"] :=
  ⟨by decide +kernel, { file := true }, by decide +kernel, rfl, rfl⟩

/-- A text that is one line and not blank can be given as an argument or in a file. If it has a
value, both runs succeed and write this value. If it has none, both fail and write nothing, and each
reports its error: that of the trimmed text is the other one but for the bytes of the leading
blanks. For the file it makes no difference how the options ask for it, and whether they ask to be
quiet. -/
theorem run_argument_or_file (hnewline : '\n' ∉ source.toList) (hblank : ¬ IsGap source)
    (hopen : openFile path = some (.ofText source)) (stdin : Input) :
    (match (Session.eval source).run ∅ with
    | .ok v _ =>
      run ["--", source] stdin openFile = ⟨0, (v.render ++ "\n").toUTF8, ""⟩ ∧
      run ["-f", "--", path] stdin openFile = ⟨0, (v.render ++ "\n").toUTF8, ""⟩
    | .error e _ =>
      run ["--", source] stdin openFile = ⟨1, .empty, e.message ++ "\n"⟩ ∧
      ∃ e' session, (Session.eval (trim source)).run ∅ = .error e' session ∧
        e = e'.shift (leadingBlanks source).utf8ByteSize ∧
        run ["-f", "--", path] stdin openFile =
          ⟨1, .empty, "Error on line 1: " ++ e'.message ++ "\n"⟩) ∧
    ∀ flags, AsksForFile flags →
      run (flags ++ ["--", path]) stdin openFile = run ["-f", "--", path] stdin openFile := by
  have hfile := run_file asksForFile_file hnewline hblank hopen stdin
  refine ⟨?_, fun flags hflags => ?_⟩
  · rw [run_argument, Session.eval_trim]
    cases heval : (Session.eval (trim source)).run ∅ with
    | ok v session =>
      rw [heval] at hfile
      exact ⟨rfl, hfile⟩
    | error e session =>
      rw [heval] at hfile
      exact ⟨rfl, e, session, rfl, rfl, hfile⟩
  · exact (run_file hflags hnewline hblank hopen stdin).trans hfile.symm

/-- A number that looks like an option, and a parenthesis behind a blank of three bytes. -/
theorem run_argument_or_file_shifted :
    (let openFile := fun _ => some (Input.ofText "-2\r")
    run ["--", "-2\r"] (.ofText "") openFile = ⟨0, "-2\n".toUTF8, ""⟩ ∧
    run ["-f", "--", "-q"] (.ofText "") openFile = ⟨0, "-2\n".toUTF8, ""⟩) ∧
    let openFile := fun _ => some (Input.ofText "\u3000)")
    run ["--", "\u3000)"] (.ofText "") openFile =
      ⟨1, .empty, (Error.read (.unopened 3)).message ++ "\n"⟩ ∧
    run ["-qf", "--", "-q"] (.ofText "") openFile =
      ⟨1, .empty, "Error on line 1: " ++ (Error.read (.unopened 0)).message ++ "\n"⟩ := by
  constructor
  · intro openFile
    have hopen : openFile "-q" = some (Input.ofText "-2\r") := rfl
    have hnot : ¬ IsGap "-2\r" := fun h => absurd (h '-' (by decide)) (by decide)
    have heval : (Session.eval "-2\r").run ∅ = .ok (.int ⟨-2, by decide, by decide⟩) ∅ := by
      rw [Session.eval_of_parse (e := .num ⟨-2, by decide, by decide⟩) (by decide +kernel)]
      rfl
    have hruns := (run_argument_or_file (by decide) hnot hopen (.ofText "")).1
    rw [heval] at hruns
    exact hruns
  · intro openFile
    have hopen : openFile "-q" = some (Input.ofText "\u3000)") := rfl
    have hnot : ¬ IsGap "\u3000)" := fun h => absurd (h ')' (by decide)) (by decide)
    have heval : (Session.eval "\u3000)").run ∅ = .error (.read (.unopened 3)) ∅ := by
      have hparse : Expr.parse "\u3000)" = .error (.unopened 3) := by decide +kernel
      rw [Session.eval, hparse]
      rfl
    obtain ⟨hruns, hflags⟩ := run_argument_or_file (by decide) hnot hopen (.ofText "")
    rw [heval] at hruns
    obtain ⟨hargument, e, session, -, hshift, hfile⟩ := hruns
    obtain rfl : e = .read (.unopened 0) := by
      have hbytes : (leadingBlanks "\u3000)").utf8ByteSize = 3 := by decide +kernel
      rcases e with (_ | offset | _ | _) | _ <;> grind [Error.shift, ReadError.shift]
    have hquiet : AsksForFile ["-qf"] :=
      ⟨by decide +kernel, { file := true, quiet := true }, by decide +kernel, rfl, rfl⟩
    exact ⟨hargument, (hflags ["-qf"] hquiet).trans hfile⟩

end CommandLine

end LineLisp
