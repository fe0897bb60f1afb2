import LineLisp.Stream

/-!
# Transcripts

On an output without a limit a computation of the console cannot fail for lack of room. It comes to
a result, and it is known by that result, the text that it adds to the output and the session that
it leaves: these are what it `Yields`, and none of them depends on what was written before.
-/

namespace LineLisp

variable {ε ε' α β : Type} {session session' session'' : Session} {text text' : String}

/-- From the session the computation comes to `result`, writes `text` and leaves `session'`,
whatever was written before it. -/
def Yields (x : EStateM ε Console α) (session : Session) (result : Except ε α) (text : String)
    (session' : Session) : Prop :=
  ∀ written : ByteArray, x.run ⟨session, ⟨written, none⟩⟩ =
    match result with
    | .ok a => .ok a ⟨session', ⟨written ++ text.toUTF8, none⟩⟩
    | .error e => .error e ⟨session', ⟨written ++ text.toUTF8, none⟩⟩

namespace Yields

theorem pure (a : α) (session : Session) :
    Yields (pure a : EStateM ε Console α) session (.ok a) "" session := by
  intro written
  simp

theorem throw (e : ε) (session : Session) :
    Yields (throw e : EStateM ε Console α) session (.error e) "" session := by
  intro written
  simp
  rfl

theorem write (text : String) (session : Session) :
    Yields (Console.write text) session (.ok ()) text session :=
  fun _ => rfl

theorem bind {x : EStateM ε Console α} {f : α → EStateM ε Console β} {a : α}
    {result : Except ε β} (hx : Yields x session (.ok a) text session')
    (hf : Yields (f a) session' result text' session'') :
    Yields (x >>= f) session result (text ++ text') session'' := by
  intro written
  have htext : written ++ (text ++ text').toUTF8 = written ++ text.toUTF8 ++ text'.toUTF8 := by
    simp [ByteArray.append_assoc]
  rw [EStateM.run_bind, hx written, htext]
  exact hf (written ++ text.toUTF8)

theorem bind_error {x : EStateM ε Console α} {e : ε}
    (hx : Yields x session (.error e) text session') (f : α → EStateM ε Console β) :
    Yields (x >>= f) session (.error e) text session' := by
  intro written
  rw [EStateM.run_bind, hx written]

theorem adaptExcept {x : EStateM ε Console α} {a : α} (hx : Yields x session (.ok a) text session')
    (f : ε → ε') : Yields (x.adaptExcept f) session (.ok a) text session' := by
  intro written
  have hrun := hx written
  simp only [EStateM.run] at hrun
  simp only [EStateM.run, EStateM.adaptExcept, hrun]

/-- There is only one outcome. -/
theorem unique {x : EStateM ε Console α} {result result' : Except ε α}
    (h : Yields x session result text session') (h' : Yields x session result' text' session'') :
    result = result' ∧ text = text' ∧ session' = session'' := by
  have hrun := (h .empty).symm.trans (h' .empty)
  cases result <;> cases result' <;> simp_all [String.toByteArray_inj]

end Yields

end LineLisp
