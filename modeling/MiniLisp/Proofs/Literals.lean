import MiniLisp.Proofs.Answers
import MiniLisp.Reader

/-! The reader makes data only, so what it reads is within every region. -/
namespace MiniLisp

section

variable {p : Policy} {r : Region}

theorem Token.value_within (token : List UInt8) :
    Meets (fun _ => True) (fun v => v.Within p r) (Token.value token) := by
  rw [Token.value]
  split
  · split
    · exact trivial
    · exact .kw _
  · split
    · have read : Meets (fun _ => True) (fun _ => True) (Token.integer token) := by
        cases Token.integer token <;> exact trivial
      exact read.map fun n _ => .int n
    · show (((Token.constant? _).getD _ : Value)).Within p r
      rw [Token.constant?]
      split
      · exact .nil
      · split
        · exact .bool true
        · split
          · exact .bool false
          · exact .sym _

namespace Reader

theorem derefOf_within {v : Value} (h : v.Within p r) : (derefOf v).Within p r := by
  refine .list fun u hu => ?_
  rcases List.mem_cons.mp (List.mem_toArray.mp hu) with rfl | hu
  · exact .sym _
  · exact List.mem_singleton.mp hu ▸ h

def Pending.Within (p : Policy) (r : Region) : Pending → Prop
  | .bracket _ _ items => AllWithin p r items
  | .deref => True

theorem deliver_within {v : Value} {forms : List Value} {stack : List Pending}
    (hv : v.Within p r) (hf : AllWithin p r forms) (hs : ∀ c ∈ stack, c.Within p r) :
    (∀ c ∈ (deliver v forms stack).1, c.Within p r) ∧
      AllWithin p r (deliver v forms stack).2 := by
  induction stack generalizing v with
  | nil => exact ⟨hs, List.forall_mem_cons.mpr ⟨hv, hf⟩⟩
  | cons c stack ih =>
    obtain ⟨hc, outer⟩ := List.forall_mem_cons.mp hs
    cases c with
    | bracket b start items =>
      exact ⟨List.forall_mem_cons.mpr ⟨List.forall_mem_cons.mpr ⟨hv, hc⟩, outer⟩, hf⟩
    | deref => exact ih (derefOf_within hv) outer

theorem enclosed_within (b : Bracket) {items : List Value} (h : AllWithin p r items) :
    Meets (fun _ => True) (fun v => v.Within p r) (enclosed b items) := by
  cases b with
  | round => exact .list fun v hv => h v (List.mem_toArray.mp hv)
  | square => exact .vec fun v hv => h v (List.mem_toArray.mp hv)
  | curly =>
    rw [enclosed]
    split
    · have keys (v : Value) : Meets (fun _ => True) (fun _ => True) (mapKey v) := by
        cases mapKey v <;> exact trivial
      refine (Meets.pairs keys h).map fun pairs hp => ?_
      refine .map fun e he => hp e ?_
      rw [Table.entries_ofPairs] at he
      exact Assoc.mem_ofPairs he
    · exact trivial

namespace State

structure Within (p : Policy) (r : Region) (s : State) : Prop where
  stack : ∀ c ∈ s.stack, c.Within p r
  forms : AllWithin p r s.forms

variable {s : State}

theorem within_start : State.start.Within p r := by
  constructor
  · intro c hc
    cases hc
  · intro v hv
    cases hv

theorem within_emit {v : Value} (h : s.Within p r) (hv : v.Within p r) : (s.emit v).Within p r :=
  have delivered := deliver_within hv h.forms h.stack
  ⟨delivered.1, delivered.2⟩

theorem within_close (h : s.Within p r) (b : Bracket) :
    Meets (fun _ => True) (Within p r) (s.close b) := by
  rw [close]
  split
  · rename_i b' start items stack hs
    split
    · have inside : AllWithin p r items :=
        h.stack (.bracket b' start items) (hs ▸ List.mem_cons_self)
      have reversed : AllWithin p r items.reverse :=
        fun v hv => inside v (List.mem_reverse.mp hv)
      have value := enclosed_within b reversed
      split
      · rename_i v hv
        rw [hv] at value
        exact within_emit
          ⟨fun c hc => h.stack c (hs ▸ List.mem_cons_of_mem _ hc), h.forms⟩ value
      · exact trivial
    · exact trivial
  · exact trivial

theorem within_endToken (h : s.Within p r) :
    Meets (fun _ => True) (Within p r) s.endToken := by
  rw [endToken]
  split
  · rename_i start bytes _
    have value := Token.value_within (p := p) (r := r) bytes.reverse
    split
    · rename_i v hv
      rw [hv] at value
      exact within_emit h value
    · exact trivial
  · exact h

theorem within_open (h : s.Within p r) (b : UInt8) :
    Meets (fun _ => True) (Within p r) (s.open b) := by
  rw [State.open]
  split
  · exact ⟨h.stack, h.forms⟩
  · split
    · exact ⟨h.stack, h.forms⟩
    · split
      · exact ⟨h.stack, h.forms⟩
      · split
        · exact ⟨List.forall_mem_cons.mpr ⟨trivial, h.stack⟩, h.forms⟩
        · split
          · refine ⟨List.forall_mem_cons.mpr ⟨?_, h.stack⟩, h.forms⟩
            intro v hv
            cases hv
          · split
            · refine within_close ?_ _
              exact ⟨h.stack, h.forms⟩
            · exact ⟨h.stack, h.forms⟩

theorem within_consume (h : s.Within p r) (b : UInt8) :
    Meets (fun _ => True) (Within p r) (s.consume b) := by
  rw [consume]
  split
  · exact within_open h b
  · exact ⟨h.stack, h.forms⟩
  · exact ⟨h.stack, h.forms⟩
  · split
    · exact within_emit ⟨h.stack, h.forms⟩ (.str _)
    · split <;> exact ⟨h.stack, h.forms⟩
  · split
    · exact ⟨h.stack, h.forms⟩
    · exact trivial

theorem within_settle (h : s.Within p r) (b : UInt8) :
    Meets (fun _ => True) (Within p r) (s.settle b) := by
  rw [settle]
  split
  · exact within_endToken h
  · exact h

theorem within_step (h : s.Within p r) (b : UInt8) :
    Meets (fun _ => True) (Within p r) (s.step b) :=
  (within_settle h b).bind fun _ h => within_consume h b

theorem within_readOn (h : s.Within p r) (bytes : List UInt8) :
    Meets (fun _ => True) (Within p r) (bytes.foldlM State.step s) := by
  induction bytes generalizing s with
  | nil => exact h
  | cons b bytes ih =>
    rw [List.foldlM_cons]
    exact (within_step h b).bind fun _ h => ih h

theorem within_finish (h : s.Within p r) :
    Meets (fun _ => True) (AllWithin p r) s.finish := by
  rw [finish]
  split
  · exact trivial
  · exact trivial
  · refine (within_endToken h).bind ?_
    intro s' h'
    split
    · intro v hv
      exact h'.forms v (List.mem_reverse.mp hv)
    · exact trivial
    · exact trivial

theorem within_firstForm (h : s.Within p r) (bytes : List UInt8) :
    Meets (fun _ => True) (fun found => ∀ f, found = some f → f.1.Within p r)
      (s.firstForm bytes) := by
  induction bytes generalizing s with
  | nil =>
    rw [firstForm]
    refine (within_finish h).bind ?_
    intro forms hf f hfound
    cases forms with
    | nil => cases hfound
    | cons v forms =>
      cases hfound
      exact hf v List.mem_cons_self
  | cons b rest ih =>
    rw [firstForm]
    refine (within_settle h b).bind ?_
    intro s' h'
    split
    · rename_i v forms hv
      intro f hfound
      cases hfound
      exact h'.forms v (hv ▸ List.mem_cons_self)
    · exact (within_consume h' b).bind fun _ h => ih h

end State

end Reader

theorem readAll_within (t : Text) : Meets (fun _ => True) (AllWithin p r) (readAll t) :=
  (Reader.State.within_readOn Reader.State.within_start t.bytes).bind
    fun _ h => Reader.State.within_finish h

theorem readFirst_within (t : Text) :
    Meets (fun _ => True) (fun found => ∀ v, found = some v → v.Within p r) (readFirst t) := by
  have start : Reader.State.start.Within p r := Reader.State.within_start
  refine (Reader.State.within_firstForm start t.bytes).bind ?_
  intro found h v hv
  cases found with
  | none => cases hv
  | some f =>
    cases hv
    exact h f rfl

theorem FormText.read_within (t : FormText) :
    Meets (fun _ => True) (fun v => v.Within p r) t.read := by
  have first := readFirst_within (p := p) (r := r) t.text
  unfold read
  split
  · rename_i h
    rw [h] at first
    exact first _ rfl
  · rename_i h
    exact absurd h t.formed
  · exact trivial

end

end MiniLisp
