import MiniLisp.Program
import MiniLisp.Proofs.Conclusions
import MiniLisp.Proofs.Pasting

/-! Loading a file pastes its text into a form, reads the form and evaluates it in the global frame.
Where the form cannot be read, nothing has happened but that the loader was called. -/
namespace MiniLisp

open EvalM Eval Pasting

namespace Loader

def parameter : Text := ascii "f"

def contents : Value := .list #[.sym (ascii "slurp"), .sym parameter]

def pasted : Value :=
  .list #[.sym (ascii "str"), .str (ascii "(do "), contents, .str (ascii "\nnil)")]

def form : Value := .list #[.sym (ascii "read-string"), pasted]

def body : Value := .list #[.sym (ascii "eval"), form]

/-- What the names in the loader mean, its parameter apart. -/
structure Meanings (m : Machine) (s global : Scope) : Prop where
  eval : ∃ id, m.lookup (ascii "eval") s = some (.native id (.evalIn global))
  read : ∃ id, m.lookup (ascii "read-string") s = some (.native id (.data .readString))
  join : ∃ id, m.lookup (ascii "str") s = some (.native id (.text .str))
  slurp : ∃ id, m.lookup (ascii "slurp") s = some (.native id .slurp)

section

variable {m : Machine} {path t : Text}

theorem slurp_concludes (found : m.file? path = some t) :
    (slurpFile [.str path]).Concludes m (.ok (.str t)) m := by
  refine (Concludes.ofExcept (.ok path) m).bind (Concludes.read fun n same => ?_)
  have files : n.file? path = some t := (congrArg (Machine.file? · path) same).trans found
  rw [files]
  exact .pure (Value.str t) m

theorem join_concludes (t : Text) (m : Machine) :
    (TextOp.run TextOp.str [.str (ascii "(do "), .str t, .str (ascii "\nnil)")]).Concludes m
      (.ok (.str (paste t))) m := by
  refine Concludes.read fun n _ => ?_
  have joined : printAll n.cells TextOp.str.isReadable TextOp.str.separator
      [.str (ascii "(do "), .str t, .str (ascii "\nnil)")] = .ok (paste t) := by
    have bytes : (((((ByteArray.empty ++ ascii "(do ") ++ ByteArray.empty) ++ t) ++
        ByteArray.empty) ++ ascii "\nnil)" : Text) = paste t :=
      Text.bytes_inj (by simp [paste])
    exact congrArg Except.ok bytes
  rw [joined]
  exact .pure (Value.str (paste t)) m

theorem read_refused {e : ReadError} (refused : readFirst (paste t) = .error e) :
    DataOp.run DataOp.readString [.str (paste t)] = .error (Error.read e) := by
  show Naming.readString DataOp.readString.name (.str (paste t)) = _
  simp only [Naming.readString, Value.textArg, bind, Except.bind, refused]

end

section

variable {m : Machine} {s global : Scope} {path t : Text} {fuel : Nat}

theorem inert_parts : contents.Inert ∧ pasted.Inert ∧ form.Inert ∧ body.Inert := by
  simp [Value.Inert, body, form, pasted, contents, Value.Within.list_iff, Value.Within.sym,
    Value.Within.str]

theorem inert_texts (ts : List Text) : ∀ v ∈ ts.map Value.str, v.Inert := by
  intro v hv
  obtain ⟨t, -, rfl⟩ := List.mem_map.mp hv
  exact .str t

theorem contents_concludes (names : Meanings m s global)
    (argument : m.lookup parameter s = some (.str path)) (found : m.file? path = some t) :
    (eval (fuel + 2) contents s).Concludes m (.ok (.str t)) m := by
  obtain ⟨_, slurp⟩ := names.slurp
  exact concludes_call rfl inert_parts.1 (concludes_symbol slurp)
    (.mapM_one (concludes_symbol argument))
    (concludes_native (inert_texts [path]) (.str t) (slurp_concludes found))

theorem pasted_concludes (names : Meanings m s global)
    (argument : m.lookup parameter s = some (.str path)) (found : m.file? path = some t) :
    (eval (fuel + 3) pasted s).Concludes m (.ok (.str (paste t))) m := by
  obtain ⟨_, join⟩ := names.join
  have parts : ([.str (ascii "(do "), contents, .str (ascii "\nnil)")].mapM
      fun e => eval (fuel + 2) e s).Concludes m
      (.ok [.str (ascii "(do "), .str t, .str (ascii "\nnil)")]) m :=
    .mapM_cons (concludes_text _) (.mapM_cons (contents_concludes names argument found)
      (.mapM_one (concludes_text _)))
  exact concludes_call rfl inert_parts.2.1 (concludes_symbol join) parts
    (concludes_native (inert_texts [ascii "(do ", t, ascii "\nnil)"]) (.str (paste t))
      (join_concludes t m))

theorem form_refused (names : Meanings m s global)
    (argument : m.lookup parameter s = some (.str path)) (found : m.file? path = some t)
    {e : ReadError} (refused : readFirst (paste t) = .error e) :
    (eval (fuel + 4) form s).Concludes m (.error (.read e)) m := by
  obtain ⟨_, read⟩ := names.read
  have run : (ofExcept (DataOp.run .readString [.str (paste t)])).Concludes m
      (.error (.read e)) m := by
    rw [read_refused refused]
    exact .ofExcept _ m
  exact concludes_call rfl inert_parts.2.2.1 (concludes_symbol read)
    (.mapM_one (pasted_concludes names argument found))
    (concludes_native_error (inert_texts [paste t]) run)

/-- The form is an argument of a call, so where it is refused there is no call. -/
theorem body_refused (names : Meanings m s global)
    (argument : m.lookup parameter s = some (.str path)) (found : m.file? path = some t)
    {e : ReadError} (refused : readFirst (paste t) = .error e) :
    (eval (fuel + 5) body s).Concludes m (.error (.read e)) m := by
  obtain ⟨_, evaluator⟩ := names.eval
  exact concludes_call_error rfl inert_parts.2.2.2 (concludes_symbol evaluator)
    (.mapM_error (form_refused names argument found refused))

end

end Loader

/-- In the scope the loader has its name, and the names that it uses mean in the global frame what
they were made to mean. -/
structure Session.Intact (session : Session) (m : Machine) (s : Scope) : Prop where
  load : ∃ id, m.lookup (ascii "load-file") s =
    some (.closure id (.ofNames [Loader.parameter]) Loader.body (some session.global))
  names : Loader.Meanings m session.global session.global

structure Machine.Kept (m n : Machine) : Prop where
  frames : ∀ f, f.index < m.frames.size → n.frame? f = m.frame? f
  cells : n.cells = m.cells
  output : n.output = m.output

section

variable {session : Session} {m : Machine} {s : Scope} {path t : Text}

def Session.loading (session : Session) (m : Machine) (path : Text) : Scope × Machine :=
  m.newFrame (some session.global) ((Params.ofNames [Loader.parameter]).bind [.str path])

theorem find?_argument (path name : Text) :
    ((Params.ofNames [Loader.parameter]).bind [Value.str path]).find? name =
      if Loader.parameter = name then some (.str path) else none := by
  rw [Table.find?_eq, Params.entries_bind]
  show Assoc.find? [(Loader.parameter, Value.str path)] name = _
  rw [← Assoc.insert_nil, Assoc.find?_insert]
  rfl

theorem lookup_loading (session : Session) (m : Machine) (path name : Text) :
    (session.loading m path).2.lookup name (session.loading m path).1 =
      if Loader.parameter = name then some (.str path) else m.lookup name session.global := by
  rw [Session.loading, Machine.lookup_newFrame, find?_argument]
  split <;> rfl

theorem meanings_loading (names : Loader.Meanings m session.global session.global) :
    Loader.Meanings (session.loading m path).2 (session.loading m path).1 session.global := by
  have around {name : Text} (other : Loader.parameter ≠ name) :
      (session.loading m path).2.lookup name (session.loading m path).1 =
        m.lookup name session.global := (lookup_loading session m path name).trans (if_neg other)
  constructor
  · rw [around (by decide)]
    exact names.eval
  · rw [around (by decide)]
    exact names.read
  · rw [around (by decide)]
    exact names.join
  · rw [around (by decide)]
    exact names.slurp

/-- Where the text of a file makes no form, loading it comes to the fault in the form. -/
theorem load_refused (intact : session.Intact m s) (found : m.file? path = some t) {e : ReadError}
    (refused : readFirst (paste t) = .error e) (fuel : Nat) :
    (eval (fuel + 6) (Program.scriptForm path) s).Concludes m (.error (.read e))
      (session.loading m path).2 := by
  obtain ⟨_, load⟩ := intact.load
  have argument := (lookup_loading session m path Loader.parameter).trans (if_pos rfl)
  have inert : (Program.scriptForm path).Inert := by
    simp [Value.Inert, Program.scriptForm, Value.Within.list_iff, Value.Within.sym,
      Value.Within.str]
  exact concludes_call rfl inert (concludes_symbol load) (.mapM_one (concludes_text path))
    (concludes_closure Loader.inert_parts.2.2.2 (Loader.inert_texts [path]) rfl
      (Loader.body_refused (meanings_loading intact.names) argument found refused))

end

end MiniLisp
