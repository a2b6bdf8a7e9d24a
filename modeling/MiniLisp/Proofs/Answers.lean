import MiniLisp.Proofs.Region

/-! What is asked of the value of a computation that succeeds, and of the error of one that fails.
-/
namespace MiniLisp

def Meets {ε α : Type} (E : ε → Prop) (P : α → Prop) : Except ε α → Prop
  | .ok a => P a
  | .error e => E e

namespace Meets

variable {ε α β : Type} {E F : ε → Prop} {P P' : α → Prop} {Q : β → Prop}

theorem bind {o : Except ε α} {f : α → Except ε β} (h : Meets E P o)
    (hf : ∀ a, P a → Meets E Q (f a)) : Meets E Q (o >>= f) := by
  cases o with
  | error e => exact h
  | ok a => exact hf a h

theorem map {o : Except ε α} {f : α → β} (h : Meets E P o) (hf : ∀ a, P a → Q (f a)) :
    Meets E Q (o.map f) := by
  cases o with
  | error e => exact h
  | ok a => exact hf a h

theorem weaken {o : Except ε α} (h : Meets E P o) (he : ∀ e, E e → F e) (hp : ∀ a, P a → P' a) :
    Meets F P' o := by
  cases o with
  | error e => exact he e h
  | ok a => exact hp a h

theorem mapM {f : α → Except ε β} {xs : List α} (h : ∀ a ∈ xs, Meets E Q (f a)) :
    Meets E (fun ys => ∀ b ∈ ys, Q b) (xs.mapM f) := by
  induction xs with
  | nil =>
    intro b hb
    exact absurd hb List.not_mem_nil
  | cons a xs ih =>
    rw [List.mapM_cons]
    refine (h a List.mem_cons_self).bind ?_
    intro b hb
    refine (ih fun a' ha => h a' (List.mem_cons_of_mem a ha)).bind ?_
    intro bs hbs c hc
    rcases List.mem_cons.mp hc with rfl | hc
    · exact hb
    · exact hbs c hc

/-- The values of pairs are among the items that were paired up. -/
theorem pairUp {key : Value → Except ε Key} {V : Value → Prop}
    (hk : ∀ v, Meets E (fun _ => True) (key v)) :
    (items : List Value) → (∀ v ∈ items, V v) → (done : List (Key × Value)) →
    (∀ e ∈ done, V e.2) → Meets E (fun pairs => ∀ e ∈ pairs, V e.2) (Value.pairUp key items done)
  | [], _, done, hd => fun e he => hd e (List.mem_reverse.mp he)
  | [_], _, done, hd => fun e he => hd e (List.mem_reverse.mp he)
  | k :: v :: rest, h, done, hd => by
    rw [Value.pairUp]
    refine (hk k).bind ?_
    intro key' _
    have hv : V v := h v (List.mem_cons_of_mem k List.mem_cons_self)
    have others : ∀ u ∈ rest, V u :=
      fun u hu => h u (List.mem_cons_of_mem k (List.mem_cons_of_mem v hu))
    refine pairUp hk rest others ((key', v) :: done) ?_
    intro e he
    rcases List.mem_cons.mp he with rfl | he
    · exact hv
    · exact hd e he

theorem pairs {key : Value → Except ε Key} {V : Value → Prop}
    (hk : ∀ v, Meets E (fun _ => True) (key v)) {items : List Value} (h : ∀ v ∈ items, V v) :
    Meets E (fun pairs => ∀ e ∈ pairs, V e.2) (Value.pairUp key items []) := by
  refine pairUp hk items h [] ?_
  intro e he
  cases he

end Meets

def carry {ε α β : Type} (E : ε → ε) (f : α → β) : Except ε α → Except ε β
  | .ok a => .ok (f a)
  | .error e => .error (E e)

section

variable {ε α β γ δ : Type} {E : ε → ε}

theorem carry_bind {f : α → γ} {g : β → δ} {o : Except ε α} {o' : Except ε γ}
    {k : α → Except ε β} {k' : γ → Except ε δ} (h : o' = carry E f o)
    (hk : ∀ a, k' (f a) = carry E g (k a)) : o' >>= k' = carry E g (o >>= k) := by
  subst h
  cases o with
  | error e => rfl
  | ok a => exact hk a

theorem carry_mapM {f : α → γ} {g : β → δ} {k : α → Except ε β} {k' : γ → Except ε δ}
    (hk : ∀ a, k' (f a) = carry E g (k a)) (xs : List α) :
    (xs.map f).mapM k' = carry E (List.map g) (xs.mapM k) := by
  induction xs with
  | nil => rfl
  | cons a xs ih =>
    rw [List.map_cons, List.mapM_cons, List.mapM_cons]
    refine carry_bind (hk a) fun b => ?_
    exact carry_bind ih fun _ => rfl

end

/-- The payload of a raised error is within the region, and something absent is complained of only
where it may occur. Other errors carry no value. -/
def Error.Within (p : Policy) (r : Region) : Error → Prop
  | .thrown v _ => v.Within p r
  | .absent _ => p.absent
  | _ => True

def Halt.Within (p : Policy) (r : Region) : Halt → Prop
  | .error e => e.Within p r
  | .outOfFuel => True

end MiniLisp
