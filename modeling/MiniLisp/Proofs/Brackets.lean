import MiniLisp.Text

/-! A message that a native is called and one that it returned enclose what is traced in between, as
brackets do. Where a run stops early, some calls are left open. -/
namespace MiniLisp

def Text.startsWith (t lead : Text) : Bool := lead.bytes.isPrefixOf t.bytes

def Text.differ (a b : Text) : Bool := (a.bytes.zip b.bytes).any fun p => p.1 != p.2

theorem Text.startsWith_append (lead rest : Text) : Text.startsWith (lead ++ rest) lead := by
  rw [startsWith, bytes_append, List.isPrefixOf_iff_prefix]
  exact List.prefix_append _ _

theorem isPrefixOf_append_of_differ {as bs : List UInt8}
    (h : (as.zip bs).any fun p => p.1 != p.2) (cs : List UInt8) :
    as.isPrefixOf (bs ++ cs) = false := by
  induction as generalizing bs with
  | nil => cases h
  | cons a as ih =>
    cases bs with
    | nil => cases h
    | cons b bs =>
      rw [List.cons_append, List.isPrefixOf_cons_cons]
      by_cases same : a = b
      · simp only [List.zip_cons_cons, List.any_cons, same, bne_self_eq_false, Bool.false_or] at h
        rw [ih h, Bool.and_false]
      · rw [beq_eq_false_iff_ne.mpr same, Bool.false_and]

theorem Text.not_startsWith_append {lead start : Text} (h : Text.differ lead start) (rest : Text) :
    Text.startsWith (start ++ rest) lead = false := by
  rw [startsWith, bytes_append]
  exact isPrefixOf_append_of_differ h rest.bytes

def callText (name args : Text) : Text :=
  ascii "call: #<function:" ++ name ++ ascii ">(" ++ args ++ ascii ")"

def returnText (name result : Text) : Text :=
  ascii "return: " ++ name ++ ascii " => " ++ result

/-- The message puts the text of the function in front of the arguments. -/
theorem callText_eq (name args : Text) :
    ascii "call: " ++ (.empty ++ ascii "#<function:" ++ name ++ ascii ">" ++ ascii "(" ++ args ++
      ascii ")") = callText name args := by
  have lead : ascii "call: #<function:" = ascii "call: " ++ ascii "#<function:" := rfl
  have opened : ascii ">(" = ascii ">" ++ ascii "(" := rfl
  simp only [callText, lead, opened, ByteArray.append_assoc, ByteArray.empty_append]

def marksNative (message : Text) : Bool :=
  Text.startsWith message (ascii "call: #<function:") || Text.startsWith message (ascii "return: ")

def nativeMarks (messages : List Text) : List Text := messages.filter marksNative

theorem marksNative_callText (name args : Text) : marksNative (callText name args) := by
  have lead := Text.startsWith_append (ascii "call: #<function:")
    (name ++ (ascii ">(" ++ (args ++ ascii ")")))
  simp only [marksNative, callText, ByteArray.append_assoc, lead, Bool.true_or]

theorem marksNative_returnText (name result : Text) : marksNative (returnText name result) := by
  have lead := Text.startsWith_append (ascii "return: ") (name ++ (ascii " => " ++ result))
  simp only [marksNative, returnText, ByteArray.append_assoc, lead, Bool.or_true]

/-- Messages that start otherwise are about something else. -/
theorem not_marksNative (start : Text) (call : Text.differ (ascii "call: #<function:") start)
    (back : Text.differ (ascii "return: ") start) (rest : Text) :
    marksNative (start ++ rest) = false := by
  rw [marksNative, Text.not_startsWith_append call, Text.not_startsWith_append back]
  rfl

theorem nativeMarks_append (before after : List Text) :
    nativeMarks (before ++ after) = nativeMarks before ++ nativeMarks after :=
  List.filter_append ..

theorem nativeMarks_of_marked {t : Text} (h : marksNative t) : nativeMarks [t] = [t] :=
  List.filter_cons_of_pos h

theorem nativeMarks_of_unmarked {t : Text} (h : marksNative t = false) : nativeMarks [t] = [] :=
  List.filter_cons_of_neg (Bool.eq_false_iff.mp h)

example : nativeMarks [ascii "eval: (f 1)", ascii "call: #<closure>(1)",
      callText (ascii "+") (ascii "1, 2"), returnText (ascii "+") (ascii "3")] =
    [ascii "call: #<function:+>(1, 2)", ascii "return: + => 3"] := by decide

/-- Every call is closed by a return of the same name, and what stands between them is
well-bracketed too. So a return closes the innermost call that is open. -/
inductive Bracketed : List Text → Prop where
  | nothing : Bracketed []
  | call {name args result : Text} {inner rest : List Text} : Bracketed inner → Bracketed rest →
      Bracketed (callText name args :: inner ++ returnText name result :: rest)

/-- The calls of these names, outermost first, are left open. All others are closed. -/
inductive LeftOpen : List Text → List Text → Prop where
  | nothing {messages : List Text} : Bracketed messages → LeftOpen messages []
  | call {name args : Text} {before inner names : List Text} : Bracketed before →
      LeftOpen inner names → LeftOpen (before ++ callText name args :: inner) (name :: names)

theorem Bracketed.append {before after : List Text} (h : Bracketed before)
    (h' : Bracketed after) : Bracketed (before ++ after) := by
  induction h with
  | nothing => exact h'
  | call inner _ _ ih =>
    rw [List.append_assoc, List.cons_append]
    exact .call inner ih

/-- What is closed already may stand in front. -/
theorem LeftOpen.after {before messages names : List Text} (h : LeftOpen messages names)
    (closed : Bracketed before) : LeftOpen (before ++ messages) names := by
  cases h with
  | nothing h => exact .nothing (closed.append h)
  | call h inner =>
    rw [← List.append_assoc]
    exact .call (closed.append h) inner

theorem LeftOpen.enclosed {name args : Text} {inner names : List Text} (h : LeftOpen inner names) :
    LeftOpen (callText name args :: inner) (name :: names) := .call .nothing h

/-- The calls can be closed, the innermost one first. -/
theorem LeftOpen.completes {messages names : List Text} (h : LeftOpen messages names) :
    ∃ rest, Bracketed (messages ++ rest) := by
  induction h with
  | nothing h => exact ⟨[], by rwa [List.append_nil]⟩
  | @call name args before inner _ closed _ ih =>
    obtain ⟨rest, enclosed⟩ := ih
    refine ⟨rest ++ [returnText name .empty], ?_⟩
    have whole : Bracketed (before ++
        (callText name args :: (inner ++ rest) ++ [returnText name .empty])) :=
      closed.append (.call enclosed .nothing)
    simpa only [List.append_assoc, List.cons_append] using whole

end MiniLisp
