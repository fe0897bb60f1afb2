import LineLisp.Proofs.Transcript

/-!
# Pieces of an output

A computation of the console writes its text in pieces, and changes the session between them. On an
output with a limit it does the same until a byte does not fit. Then it fails in the session in
which it writes that piece, and the output has taken all bytes before.
-/

namespace LineLisp

/-- A text that is written at once, and the session at that time. -/
structure Piece where
  text : String
  session : Session

/-- The text of pieces, one after the other. -/
def joined (pieces : List Piece) : String := String.join (pieces.map Piece.text)

@[simp] theorem joined_nil : joined [] = "" := rfl

@[simp] theorem joined_cons (piece : Piece) (pieces : List Piece) :
    joined (piece :: pieces) = piece.text ++ joined pieces := by
  simp [joined, String.join_cons]

@[simp] theorem joined_append (pieces pieces' : List Piece) :
    joined (pieces ++ pieces') = joined pieces ++ joined pieces' := by
  simp [joined]

/-- The session in which the byte at the offset is written, if there is such a byte. -/
def sessionAt : List Piece → Nat → Option Session
  | [], _ => none
  | piece :: pieces, offset =>
    if offset < piece.text.utf8ByteSize then some piece.session
    else sessionAt pieces (offset - piece.text.utf8ByteSize)

theorem sessionAt_append (pieces pieces' : List Piece) (offset : Nat) :
    sessionAt (pieces ++ pieces') offset =
      (sessionAt pieces offset).or (sessionAt pieces' (offset - (joined pieces).utf8ByteSize)) := by
  induction pieces generalizing offset with
  | nil => simp [sessionAt]
  | cons piece pieces ih =>
    rw [List.cons_append, sessionAt, sessionAt]
    split
    · rfl
    · rw [ih, joined_cons, String.utf8ByteSize_append, Nat.sub_sub]

theorem sessionAt_eq_none_iff {pieces : List Piece} {offset : Nat} :
    sessionAt pieces offset = none ↔ (joined pieces).utf8ByteSize ≤ offset := by
  induction pieces generalizing offset with
  | nil => simp [sessionAt]
  | cons piece pieces ih =>
    rw [sessionAt, joined_cons, String.utf8ByteSize_append]
    split <;> grind

theorem lt_of_sessionAt {pieces : List Piece} {offset : Nat} {session : Session}
    (h : sessionAt pieces offset = some session) : offset < (joined pieces).utf8ByteSize := by
  apply Nat.lt_of_not_le
  intro hle
  simp [sessionAt_eq_none_iff.2 hle] at h

theorem sessionAt_cons_cases {piece : Piece} {pieces : List Piece} {offset : Nat}
    {session : Session} (h : sessionAt (piece :: pieces) offset = some session) :
    offset < piece.text.utf8ByteSize ∧ session = piece.session ∨
      piece.text.utf8ByteSize ≤ offset ∧
        sessionAt pieces (offset - piece.text.utf8ByteSize) = some session := by
  rw [sessionAt] at h
  split at h <;> grind

theorem exists_mem_of_sessionAt {pieces : List Piece} {offset : Nat} {session : Session}
    (h : sessionAt pieces offset = some session) : ∃ piece ∈ pieces, piece.session = session := by
  induction pieces generalizing offset with
  | nil => cases h
  | cons piece pieces ih =>
    rcases sessionAt_cons_cases h with ⟨-, rfl⟩ | ⟨-, hrest⟩
    · exact ⟨piece, by simp⟩
    · obtain ⟨piece', hmem, rfl⟩ := ih hrest
      exact ⟨piece', by simp [hmem]⟩

/-! ## Outputs with room -/

/-- The first bytes of a text. -/
def firstBytes (n : Nat) (text : String) : ByteArray := text.toUTF8.extract 0 n

theorem firstBytes_of_le {n : Nat} {text : String} (h : text.utf8ByteSize ≤ n) :
    firstBytes n text = text.toUTF8 := by
  have hmax : max n text.toUTF8.size = n := Nat.max_eq_left (by simpa using h)
  rw [firstBytes, ← hmax, ByteArray.extract_zero_max_size]

theorem firstBytes_append (n : Nat) (text text' : String) :
    firstBytes n (text ++ text') =
      firstBytes n text ++ firstBytes (n - text.utf8ByteSize) text' := by
  simp [firstBytes, ByteArray.extract_append]

@[simp] theorem firstBytes_zero (text : String) : firstBytes 0 text = .empty :=
  ByteArray.extract_same

namespace Output

/-- The output with a text behind what was written. -/
def add (out : Output) (text : String) : Output :=
  { out with written := out.written ++ text.toUTF8 }

/-- The output has room for the text. -/
def Admits (out : Output) (text : String) : Prop :=
  ∀ limit, out.limit = some limit → text.utf8ByteSize ≤ limit.capacity - out.written.size

@[simp] theorem add_empty (out : Output) : out.add "" = out := by
  simp [add]

theorem add_append (out : Output) (text text' : String) :
    out.add (text ++ text') = (out.add text).add text' := by
  simp [add, ByteArray.append_assoc]

theorem admits_append_iff {out : Output} {text text' : String} :
    out.Admits (text ++ text') ↔ out.Admits text ∧ (out.add text).Admits text' := by
  simp only [Admits, add, String.utf8ByteSize_append, ByteArray.size_append,
    String.toUTF8_eq_toByteArray, String.size_toByteArray]
  grind

theorem write_of_admits {out : Output} {text : String} (h : out.Admits text) :
    Output.write text out = .ok () (out.add text) := by
  unfold Output.write
  cases hlimit : out.limit with
  | none => simp [add, hlimit]
  | some limit =>
    have hroom := h limit hlimit
    simp_all [add]

theorem write_of_lt {written : ByteArray} {limit : Limit} {text : String}
    (h : limit.capacity - written.size < text.utf8ByteSize) :
    Output.write text ⟨written, some limit⟩ = .error limit.fault
      ⟨written ++ firstBytes (limit.capacity - written.size) text, some limit⟩ := by
  simp [Output.write, firstBytes, Nat.not_le.2 h]

end Output

/-! ## Computations -/

/-- From the session the computation comes to `result`, writes the pieces and leaves `session'`, if
the output has room for them. Otherwise it raises the fault of the output in the session of the
piece that does not fit. -/
structure Writes {ε α : Type} (raise : Fault → ε) (x : EStateM ε Console α) (session : Session)
    (result : Except ε α) (pieces : List Piece) (session' : Session) : Prop where
  fits (out : Output) : out.Admits (joined pieces) → x.run ⟨session, out⟩ =
    match result with
    | .ok a => .ok a ⟨session', out.add (joined pieces)⟩
    | .error e => .error e ⟨session', out.add (joined pieces)⟩
  overruns (written : ByteArray) (limit : Limit) (session₁ : Session) :
    sessionAt pieces (limit.capacity - written.size) = some session₁ →
    x.run ⟨session, ⟨written, some limit⟩⟩ = .error (raise limit.fault) ⟨session₁,
      ⟨written ++ firstBytes (limit.capacity - written.size) (joined pieces), some limit⟩⟩

namespace Writes

variable {ε ε' α β : Type} {session session' session'' : Session}
  {pieces pieces' : List Piece} {raise : Fault → ε} {x : EStateM ε Console α}

theorem yields {result : Except ε α} (h : Writes raise x session result pieces session') :
    Yields x session result (joined pieces) session' :=
  fun written => h.fits ⟨written, none⟩ nofun

theorem pure (a : α) (session : Session) :
    Writes raise (pure a) session (.ok a) [] session where
  fits out _ := by simp
  overruns _ _ _ h := by cases h

theorem throw (e : ε) (session : Session) :
    Writes raise (throw e : EStateM ε Console α) session (.error e) [] session where
  fits out _ := by
    simp
    rfl
  overruns _ _ _ h := by cases h

theorem write (text : String) (session : Session) :
    Writes id (Console.write text) session (.ok ()) [⟨text, session⟩] session where
  fits out h := by
    have hout : out.Admits text := by simpa using h
    simp [Console.write, EStateM.run, Output.write_of_admits hout]
  overruns written limit session₁ h := by
    obtain ⟨hroom, rfl⟩ : limit.capacity - written.size < text.utf8ByteSize ∧
        session = session₁ := by simpa [sessionAt] using h
    simp [Console.write, EStateM.run, Output.write_of_lt hroom]

theorem bind {f : α → EStateM ε Console β} {a : α} {result : Except ε β}
    (hx : Writes raise x session (.ok a) pieces session')
    (hf : Writes raise (f a) session' result pieces' session'') :
    Writes raise (x >>= f) session result (pieces ++ pieces') session'' where
  fits out h := by
    rw [joined_append, Output.admits_append_iff] at h
    rw [EStateM.run_bind, hx.fits out h.1, joined_append, Output.add_append]
    exact hf.fits _ h.2
  overruns written limit session₁ h := by
    rw [sessionAt_append] at h
    rw [EStateM.run_bind, joined_append, firstBytes_append]
    cases hpieces : sessionAt pieces (limit.capacity - written.size) with
    | some session₂ =>
      -- The first part does not fit, and nothing is left of the second.
      obtain rfl : session₂ = session₁ := by simpa [hpieces] using h
      have hlt := lt_of_sessionAt hpieces
      have hroom : limit.capacity - written.size - (joined pieces).utf8ByteSize = 0 := by omega
      rw [hx.overruns written limit session₂ hpieces, hroom]
      simp
    | none =>
      -- The first part fits, and takes from the room of the second.
      have hle := sessionAt_eq_none_iff.1 hpieces
      have hout : Output.Admits ⟨written, some limit⟩ (joined pieces) := by
        rintro _ ⟨⟩
        exact hle
      have hroom : limit.capacity - (written ++ (joined pieces).toUTF8).size =
          limit.capacity - written.size - (joined pieces).utf8ByteSize := by
        simp [ByteArray.size_append, Nat.sub_sub]
      rw [hpieces, Option.none_or, ← hroom] at h
      rw [hx.fits _ hout, firstBytes_of_le hle, ← ByteArray.append_assoc, ← hroom]
      exact hf.overruns _ limit session₁ h

theorem bind_error {e : ε} (hx : Writes raise x session (.error e) pieces session')
    (f : α → EStateM ε Console β) : Writes raise (x >>= f) session (.error e) pieces session' where
  fits out h := by rw [EStateM.run_bind, hx.fits out h]
  overruns written limit session₁ h := by rw [EStateM.run_bind, hx.overruns written limit _ h]

theorem adaptExcept {a : α} (hx : Writes raise x session (.ok a) pieces session') (f : ε → ε') :
    Writes (f ∘ raise) (x.adaptExcept f) session (.ok a) pieces session' where
  fits out h := by
    have hrun := hx.fits out h
    simp only [EStateM.run] at hrun
    simp only [EStateM.run, EStateM.adaptExcept, hrun]
  overruns written limit session₁ h := by
    have hrun := hx.overruns written limit session₁ h
    simp only [EStateM.run] at hrun
    simp only [EStateM.run, EStateM.adaptExcept, hrun, Function.comp]

end Writes

end LineLisp
