import MiniLisp.Proofs.Conclusions
import MiniLisp.Proofs.References

/-! A name means what the first frame of the chain binds it to. So a definition is seen from exactly
those frames whose chain leads to it with no binding of the name before. -/
namespace MiniLisp

namespace Machine

def answer (m : Machine) (name : Text) (s : Option Scope) : Except Error Value :=
  match s.bind (m.lookup name) with
  | some v => .ok v
  | none => .error (.unbound name)

theorem ends_lookupIn (m : Machine) (name : Text) (s : Option Scope) :
    (EvalM.lookupIn s name).Ends m (m.answer name s) m := by
  cases s with
  | none => rfl
  | some s =>
    show (EvalM.lookup s name).Ends m (m.answer name (some s)) m
    rw [answer, Option.bind_some]
    cases found : m.lookup name s with
    | some v => exact EvalM.ends_lookup_found found
    | none => exact EvalM.ends_lookup_unbound found

/-- The frame is on the chain of the scope, and no frame before it binds the name. -/
def Sees (m : Machine) (name : Text) (e : FrameId) (f : Scope) : Prop :=
  ∃ before t after, f.chain = before ++ t :: after ∧ t.id = e ∧
    ∀ u ∈ before, m.local? u name = none

section Definition

variable {m : Machine} {e f : Scope} {name x : Text} {v : Value}

/-- Frames that are passed by on the way bind nothing, so the search gets to the new binding. -/
theorem findSome?_define_of_first (made : e.id.index < m.frames.size) {before after : List Scope}
    {t : Scope} (same : t.id = e.id) (none : ∀ u ∈ before, m.local? u name = none) :
    (before ++ t :: after).findSome? (fun u => (m.define e name v).local? u name) = some v := by
  induction before with
  | nil => rw [List.nil_append, List.findSome?_cons, local?_define, if_pos ⟨same, rfl, made⟩]
  | cons u before ih =>
    obtain ⟨unbound, rest⟩ := List.forall_mem_cons.mp none
    rw [List.cons_append, List.findSome?_cons, local?_define, unbound, ih rest]
    -- A frame with the same place, met before, has the new binding as well.
    by_cases here : u.id = e.id
    · rw [if_pos ⟨here, rfl, made⟩]
    · rw [if_neg fun h => here h.1]

theorem lookup_define_of_sees (made : e.id.index < m.frames.size) (h : m.Sees name e.id f) :
    (m.define e name v).lookup name f = some v := by
  obtain ⟨before, t, after, chain, same, none⟩ := h
  rw [lookup_eq_findSome?, chain]
  exact findSome?_define_of_first made same none

theorem findSome?_define_of_hidden {scopes : List Scope}
    (hidden : ∀ before t after, scopes = before ++ t :: after → t.id = e.id →
      ∃ u ∈ before, m.local? u name ≠ none) :
    scopes.findSome? (fun u => (m.define e name v).local? u name) =
      scopes.findSome? fun u => m.local? u name := by
  induction scopes with
  | nil => rfl
  | cons u scopes ih =>
    have other : u.id ≠ e.id := fun same => by
      obtain ⟨w, hw, _⟩ := hidden [] u scopes rfl same
      cases hw
    rw [List.findSome?_cons, List.findSome?_cons, local?_define, if_neg fun h => other h.1]
    cases bound : m.local? u name with
    | some w => rfl
    | none =>
      refine ih fun before t after split same => ?_
      obtain ⟨w, hw, binds⟩ := hidden (u :: before) t after (by rw [split]; rfl) same
      rcases List.mem_cons.mp hw with rfl | hw
      · exact absurd bound binds
      · exact ⟨w, hw, binds⟩

theorem lookup_define_of_hidden (h : ¬(x = name ∧ m.Sees name e.id f)) :
    (m.define e name v).lookup x f = m.lookup x f := by
  by_cases same : x = name
  · subst same
    rw [lookup_eq_findSome?, lookup_eq_findSome?]
    refine findSome?_define_of_hidden fun before t after chain reached => ?_
    by_contra none
    refine h ⟨rfl, before, t, after, chain, reached, fun u hu => ?_⟩
    by_contra binds
    exact none ⟨u, hu, binds⟩
  · exact lookup_congr (fun s => by rw [local?_define, if_neg fun h => same h.2.1.symm]) f

end Definition

end Machine

/-- The last place below the number of arguments at which a parameter has the name. -/
def Params.LastPlace (p : Params) (count : Nat) (name : Text) (i : Nat) : Prop :=
  p.names[i]? = some name ∧ i < count ∧ ∀ j, i < j → j < count → p.names[j]? ≠ some name

namespace Params

variable {p : Params} {args : List Value} {name : Text} {i : Nat} {v : Value}

theorem notMem_keys_drop {n : Nat}
    (none : ∀ j, n ≤ j → j < args.length → p.names[j]? ≠ some name) :
    name ∉ Assoc.keys ((p.names.zip args).drop n) := by
  intro bound
  obtain ⟨⟨k, w⟩, pair, rfl⟩ := List.mem_map.mp bound
  obtain ⟨j, place⟩ := List.mem_iff_getElem?.mp pair
  rw [List.getElem?_drop, List.getElem?_zip_eq_some] at place
  obtain ⟨inside, _⟩ := List.getElem?_eq_some_iff.mp place.2
  exact none (n + j) (Nat.le_add_right n j) inside place.1

/-- Of the arguments that one name gets, the last one stays. -/
theorem find?_bind_last (last : p.LastPlace args.length name i) (found : args[i]? = some v) :
    (p.bind args).find? name = some v := by
  obtain ⟨named, _, none⟩ := last
  have pair : (p.names.zip args)[i]? = some (name, v) :=
    List.getElem?_zip_eq_some.mpr ⟨named, found⟩
  obtain ⟨inside, pair⟩ := List.getElem?_eq_some_iff.mp pair
  have split : p.names.zip args =
      (p.names.zip args).take i ++ (name, v) :: (p.names.zip args).drop (i + 1) := by
    rw [← pair, ← List.drop_eq_getElem_cons inside, List.take_append_drop]
  rw [Table.find?_eq, entries_bind, split]
  exact Assoc.find?_ofPairs_of_last (notMem_keys_drop none) v

theorem find?_bind_none (none : ∀ i < args.length, p.names[i]? ≠ some name) :
    (p.bind args).find? name = .none := by
  have absent : name ∉ Assoc.keys ((p.names.zip args).drop 0) :=
    notMem_keys_drop fun j _ => none j
  rw [Table.find?_eq, entries_bind, Assoc.ofPairs]
  exact Assoc.find?_insertAll_of_notMem absent []

end Params

/-- Definition and lookup obey lexical shadowing, and so does the frame of a call, in which a
repeated parameter means its last argument and one without an argument nothing. -/
theorem lexical_shadowing :
    (∀ (m : Machine) (e f : Scope) (n x : Text) (v : Value), e.id.index < m.frames.size →
      (x = n ∧ m.Sees n e.id f → (m.define e n v).answer x (some f) = .ok v) ∧
      (¬(x = n ∧ m.Sees n e.id f) →
        (m.define e n v).answer x (some f) = m.answer x (some f))) ∧
    (∀ (m : Machine) (parent : Option Scope) (params : Params) (args : List Value) (x : Text),
      let made := m.newFrame parent (params.bind args)
      (∀ i v, params.LastPlace args.length x i → args[i]? = some v →
        made.2.answer x (some made.1) = .ok v) ∧
      ((∀ i < args.length, params.names[i]? ≠ some x) →
        made.2.answer x (some made.1) = m.answer x parent)) ∧
    ∀ (m : Machine) (x : Text) (s : Option Scope),
      (EvalM.lookupIn s x).Ends m (m.answer x s) m ∧
      (∀ v e, s = some e → (EvalM.defineIn s x v).Ends m (.ok ⟨⟩) (m.define e x v)) ∧
      ∀ given, (EvalM.newFrame s given).Ends m (.ok (m.newFrame s given).1)
        (m.newFrame s given).2 := by
  refine ⟨fun m e f n x v made => ⟨?_, fun hidden => ?_⟩, fun m parent params args x => ?_,
    fun m x s => ⟨m.ends_lookupIn x s, ?_, fun _ => rfl⟩⟩
  · rintro ⟨rfl, sees⟩
    rw [Machine.answer, Option.bind_some, Machine.lookup_define_of_sees made sees]
  · rw [Machine.answer, Option.bind_some, Machine.lookup_define_of_hidden hidden]
    rfl
  · intro made
    have means : made.2.answer x (some made.1) =
        match ((params.bind args).find? x).or (parent.bind (m.lookup x)) with
        | some v => .ok v
        | none => .error (.unbound x) := by
      rw [Machine.answer, Option.bind_some, Machine.lookup_newFrame]
    refine ⟨fun i v last found => ?_, fun none => ?_⟩
    · rw [means, Params.find?_bind_last last found]
      rfl
    · rw [means, Params.find?_bind_none none]
      rfl
  · rintro v e rfl
    rfl

namespace Shadowed

def outer : Scope := .frame ⟨0⟩ .empty none

def params : Params := .ofNames [ascii "a", ascii "a"]

def called : Scope × Machine :=
  (Machine.empty.newFrame none .empty).2.newFrame (some outer) (params.bind [.int 1, .int 2])

theorem find?_params (name : Text) : (params.bind [Value.int 1, .int 2]).find? name =
    if ascii "a" = name then some (.int 2) else none := by
  rw [Table.find?_eq, Params.entries_bind]
  rfl

theorem local?_called (name : Text) :
    called.2.local? called.1 name = if ascii "a" = name then some (.int 2) else none := by
  rw [called, Machine.local?_newFrame, Machine.local?_new, find?_params]

end Shadowed

open Shadowed in
theorem repeated_parameter_shadows :
    called.2.answer (ascii "a") (some called.1) = .ok (.int 2) ∧
    (called.2.define outer (ascii "b") (.int 3)).answer (ascii "b") (some called.1) =
      .ok (.int 3) ∧
    (called.2.define outer (ascii "a") (.int 3)).answer (ascii "a") (some called.1) =
      called.2.answer (ascii "a") (some called.1) := by
  have two : called.2.frames.size = 2 := rfl
  have made : outer.id.index < called.2.frames.size := by
    rw [two]
    decide
  have chain : called.1.chain = [called.1, outer] := rfl
  obtain ⟨defines, binds, _⟩ := lexical_shadowing
  refine ⟨?_, ?_, ?_⟩
  · have last : params.LastPlace 2 (ascii "a") 1 := by
      refine ⟨rfl, by decide, fun j above below => ?_⟩
      omega
    exact (binds _ (some outer) params [.int 1, .int 2] (ascii "a")).1 1 (.int 2) last rfl
  · refine (defines called.2 outer called.1 (ascii "b") (ascii "b") (.int 3) made).1 ⟨rfl, ?_⟩
    refine ⟨[called.1], outer, [], chain, rfl, fun u hu => ?_⟩
    rw [List.mem_singleton.mp hu, local?_called]
    decide
  · refine (defines called.2 outer called.1 (ascii "a") (ascii "a") (.int 3) made).2 ?_
    rintro ⟨_, before, t, after, split, same, unbound⟩
    rw [chain] at split
    cases before with
    | nil =>
      obtain ⟨rfl, _⟩ := List.cons.inj split
      exact absurd same (by decide)
    | cons u before =>
      obtain ⟨rfl, _⟩ := List.cons.inj split
      have bound := unbound called.1 List.mem_cons_self
      rw [local?_called] at bound
      cases bound

end MiniLisp
