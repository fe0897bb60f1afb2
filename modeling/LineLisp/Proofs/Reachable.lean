import LineLisp.Proofs.Names
import LineLisp.Proofs.Writes
import LineLisp.Repl
import LineLisp.Script
import Mathlib.Logic.Relation

/-!
# Reachable sessions

A session is used by evaluating a source text in it, by running the interactive loop over an input,
and by running a script. Inputs and outputs may fail at any point. The loop and the script change
the session only by evaluating source texts, so that whatever evaluation keeps is kept by all of
them.
-/

namespace LineLisp

namespace Session

/-- The session after a source text was evaluated in it, with success or without. -/
def after (session : Session) (source : String) : Session :=
  ((Session.eval source).run session).state

/-- The second session comes from the first by evaluating source texts. -/
def Evolves : Session → Session → Prop :=
  Relation.ReflTransGen fun session session' => ∃ source, session' = session.after source

theorem Evolves.refl (session : Session) : session.Evolves session :=
  Relation.ReflTransGen.refl

theorem Evolves.trans {session session' session'' : Session} (h : session.Evolves session')
    (h' : session'.Evolves session'') : session.Evolves session'' :=
  Relation.ReflTransGen.trans h h'

theorem evolves_after (session : Session) (source : String) :
    session.Evolves (session.after source) :=
  Relation.ReflTransGen.single ⟨source, rfl⟩

end Session

/-! ## Loops over an input -/

/-- The computation changes the session of its console only by evaluating source texts. -/
def Evolving {ε α : Type} (x : EStateM ε Console α) : Prop :=
  ∀ console : Console, Session.Evolves console.session (x.run console).state.session

namespace Evolving

variable {ε ε' α β : Type}

theorem pure (a : α) : Evolving (pure a : EStateM ε Console α) :=
  fun console => .refl console.session

theorem throw (e : ε) : Evolving (throw e : EStateM ε Console α) :=
  fun console => .refl console.session

theorem bind {x : EStateM ε Console α} {f : α → EStateM ε Console β} (hx : Evolving x)
    (hf : ∀ a, Evolving (f a)) : Evolving (x >>= f) := by
  intro console
  have hfirst := hx console
  rw [EStateM.run_bind]
  cases hrun : x.run console with
  | ok a console' =>
    rw [hrun] at hfirst
    exact hfirst.trans (hf a console')
  | error e console' =>
    rw [hrun] at hfirst
    exact hfirst

theorem adaptExcept {x : EStateM ε Console α} (hx : Evolving x) (f : ε → ε') :
    Evolving (x.adaptExcept f) := by
  intro console
  rw [EStateM.state_run_adaptExcept]
  exact hx console

theorem write (text : String) : Evolving (Console.write text) := by
  intro console
  have hsession : ((Console.write text).run console).state.session = console.session := by
    simp only [Console.write, EStateM.run]
    cases Output.write text console.output <;> rfl
  rw [hsession]
  exact .refl _

end Evolving

theorem Command.evolves_answer (command : Command) (session : Session) :
    session.Evolves (command.answer session).2 := by
  cases command with
  | evaluate source =>
    have hafter : (Session.respond session source).2 = session.after source := by
      unfold Session.respond Session.after
      split <;> next hrun => rw [hrun]; rfl
    rw [Command.answer, hafter]
    exact session.evolves_after source
  | _ => exact .refl _

theorem Repl.evolving_perform (command : Command) : Evolving (Repl.perform command) :=
  .bind (fun console => command.evolves_answer console.session) .write

theorem Repl.evolving_turn (line : String) : Evolving (Repl.turn line) :=
  .bind (evolving_perform _) fun _ => .pure _

theorem Repl.evolving_close : ∀ fault : Option Fault, Evolving (Repl.close fault)
  | none => .write _
  | some fault => .throw fault

theorem Repl.evolving_loop (prompt : String) (fault : Option Fault) (lines : List String) :
    Evolving (Repl.loop prompt fault lines) := by
  induction lines with
  | nil => exact .bind (.write prompt) fun _ => evolving_close fault
  | cons line lines ih =>
    refine .bind (.write prompt) fun _ => .bind (evolving_turn line) fun goesOn => ?_
    cases goesOn with
    | false => exact .pure ()
    | true => exact ih

theorem Repl.evolving_run (prompt : String) (input : Input) : Evolving (Repl.run prompt input) :=
  .bind (.write banner) fun _ => evolving_loop prompt input.fault input.lines

theorem Script.evolving_evaluate (number : Nat) (source : String) :
    Evolving (Script.evaluate number source) := by
  intro console
  have hsession : ((Script.evaluate number source).run console).state.session =
      console.session.after source := by
    simp only [Script.evaluate, Session.after, EStateM.run]
    cases Session.eval source console.session <;> rfl
  rw [hsession]
  exact console.session.evolves_after source

theorem Script.evolving_print (v : Value) : Evolving (Script.print v) :=
  (Evolving.write _).adaptExcept _

theorem Script.evolving_finish (quiet : Bool) (last : Option Value) :
    Evolving (Script.finish quiet last) := by
  cases last with
  | none => exact .pure none
  | some v =>
    cases quiet with
    | true => exact .bind (evolving_print v) fun _ => .pure (some v)
    | false => exact .pure (some v)

theorem Script.evolving_loop (quiet : Bool) (fault : Option Fault) (lines : List String)
    (number : Nat) (last : Option Value) :
    Evolving (Script.loop quiet fault number last lines) := by
  induction lines generalizing number last with
  | nil =>
    cases fault with
    | none => exact evolving_finish quiet last
    | some fault => exact .throw _
  | cons line lines ih =>
    rw [Script.loop]
    split
    · exact ih (number + 1) last
    · refine .bind (evolving_evaluate number line) fun v => ?_
      cases quiet with
      | true => exact ih (number + 1) (some v)
      | false => exact .bind (evolving_print v) fun _ => ih (number + 1) (some v)

/-! ## Calls -/

/-- A use of a session, with the streams that it reads and writes. -/
inductive Call where
  | eval (source : String)
  | interact (prompt : String) (input : Input) (output : Output)
  | script (quiet : Bool) (input : Input) (output : Output)

/-- The session that a call leaves, whether it fails or not. -/
def Call.leave (session : Session) : Call → Session
  | .eval source => ((Session.eval source).run session).state
  | .interact prompt input output =>
    ((Repl.run prompt input).run { session, output }).state.session
  | .script quiet input output =>
    ((Script.run quiet input).run { session, output }).state.session

theorem Call.evolves_leave (call : Call) (session : Session) :
    session.Evolves (call.leave session) := by
  cases call with
  | eval source => exact session.evolves_after source
  | interact prompt input output => exact Repl.evolving_run prompt input { session, output }
  | script quiet input output => exact Script.evolving_loop quiet _ _ 1 none { session, output }

namespace Session

/-- Calls lead to the session from a fresh one. -/
inductive Reachable : Session → Prop
  | new : Reachable ∅
  | call {session : Session} (h : Reachable session) (call : Call) : Reachable (call.leave session)

theorem Reachable.evolves {session : Session} (h : session.Reachable) :
    Evolves ∅ session := by
  induction h with
  | new => exact .refl _
  | call _ call ih => exact ih.trans (call.evolves_leave _)

/-! ## The names that are bound -/

/-- Every bound name can stand in a source as a symbol and is no constant. -/
def WellNamed (session : Session) : Prop :=
  ∀ name ∈ session, IsName name ∧ Value.constant? name = none

end Session

/-- The target of a definition stands in the expression. -/
theorem Expr.occurs_of_mem_targets {e : Expr} {name : String} (h : name ∈ e.targets) :
    Occurs (.sym name) e := by
  induction e with
  | num n => simp [targets, definitions] at h
  | sym text => simp [targets, definitions] at h
  | list items ih =>
    rw [targets, definitions_list, List.map_append, List.mem_append] at h
    obtain h | h := h
    · rw [List.map_flatMap] at h
      obtain ⟨e, he, h⟩ := List.mem_flatMap.1 h
      exact .item he (ih e he h)
    · unfold definition? at h
      split at h
      · next text body =>
        obtain rfl : name = text := by simpa using h
        exact .item (List.mem_cons_of_mem _ List.mem_cons_self) .self
      · simp at h

namespace Session

theorem WellNamed.eval {session : Session} (h : session.WellNamed) {e : Expr} (he : e.Named) :
    WellNamed (e.eval.run session).state := by
  obtain ⟨writes, hwritten, hsub, hstate⟩ := eval_leads e session
  rw [hstate]
  intro name hname
  obtain hname | hname := Env.mem_writeAll_iff.1 hname
  · exact h name hname
  · obtain ⟨w, hw, rfl⟩ := List.mem_map.1 hname
    have htarget : w.definition.name ∈ e.targets :=
      List.mem_map_of_mem (hsub.subset (List.mem_map_of_mem hw))
    exact ⟨he _ (Expr.occurs_of_mem_targets htarget), hwritten.constant?_eq_none w hw⟩

theorem WellNamed.after {session : Session} (h : session.WellNamed) (source : String) :
    WellNamed (session.after source) := by
  unfold Session.after Session.eval
  cases hparse : Expr.parse source with
  | error fault => exact h
  | ok e =>
    dsimp only
    rw [EStateM.state_run_adaptExcept]
    exact h.eval (Expr.named_of_parse hparse)

theorem Evolves.wellNamed {session session' : Session} (h : session.Evolves session')
    (hnamed : session.WellNamed) : session'.WellNamed := by
  induction h with
  | refl => exact hnamed
  | tail _ hstep ih =>
    obtain ⟨source, rfl⟩ := hstep
    exact ih.after source

theorem Reachable.wellNamed {session : Session} (h : session.Reachable) : session.WellNamed :=
  h.evolves.wellNamed (by simp [WellNamed])

/-- Whatever a fresh session was used for, its bound names are not empty, have neither blanks nor
parentheses in them, and are neither numerals nor constants. -/
theorem Reachable.isName_of_mem {session : Session} (h : session.Reachable) {name : String}
    (hname : name ∈ session) : IsName name ∧ name ≠ "true" ∧ name ≠ "false" := by
  obtain ⟨hisName, hconstant⟩ := h.wellNamed name hname
  exact ⟨hisName, Value.constant?_eq_none_iff.1 hconstant⟩

/-- A script that its output cut short after the first line has bound `-`. -/
theorem Reachable.isName_of_mem_cut_script :
    "-" ∈ Call.leave ∅ (.script false (.ofText "(define - 1)\n(define x 2)\n")
      { limit := some ⟨1, ⟨"full"⟩⟩ }) ∧ IsName "-" ∧ "-" ≠ "true" ∧ "-" ≠ "false" := by
  have hmem : "-" ∈ Call.leave ∅ (.script false (.ofText "(define - 1)\n(define x 2)\n")
      { limit := some ⟨1, ⟨"full"⟩⟩ }) := by decide +kernel
  exact ⟨hmem, (Reachable.new.call _).isName_of_mem hmem⟩

end Session

end LineLisp
