import Mathlib.Logic.Relation
import Mathlib.Order.Basic
import MiniLisp.Machine

/-! What a program can get at is found by walking from values to their parts, from cells to their
contents, from closures to their scopes, and from frames to their parents and bindings. A region is
a set of scopes and cells, closed if no such walk leaves it. -/
namespace MiniLisp

inductive Item where
  | value (v : Value)
  | scope (s : Scope)

/-- The edges along which one item keeps another alive. -/
inductive Edge (m : Machine) : Item → Item → Prop where
  | listItem {xs : Array Value} {v : Value} : v ∈ xs → Edge m (.value (.list xs)) (.value v)
  | vecItem {xs : Array Value} {v : Value} : v ∈ xs → Edge m (.value (.vec xs)) (.value v)
  | mapValue {t : Table Key Value} {e : Key × Value} : e ∈ t.entries →
      Edge m (.value (.map t)) (.value e.2)
  | content (c : CellId) : Edge m (.value (.cell c)) (.value (m.cellContent c))
  | body (id : FunId) (params : Params) (body : Value) (scope : Option Scope) :
      Edge m (.value (.closure id params body scope)) (.value body)
  | captured (id : FunId) (params : Params) (body : Value) (s : Scope) :
      Edge m (.value (.closure id params body (some s))) (.scope s)
  | parent {s t : Scope} : s.parent = some t → Edge m (.scope s) (.scope t)
  | binding {s : Scope} {name : Text} {v : Value} : m.local? s name = some v →
      Edge m (.scope s) (.value v)

/-- Evaluation also gets at the scope that a native evaluates in, which no edge leads to. -/
inductive Access (m : Machine) : Item → Item → Prop where
  | edge {x y : Item} : Edge m x y → Access m x y
  | evaluated (id : FunId) (s : Scope) : Access m (.value (.native id (.evalIn s))) (.scope s)

def Reaches (m : Machine) (roots : List Item) (x : Item) : Prop :=
  ∃ root ∈ roots, Relation.ReflTransGen (Edge m) root x

def Accesses (m : Machine) (roots : List Item) (x : Item) : Prop :=
  ∃ root ∈ roots, Relation.ReflTransGen (Access m) root x

theorem Reaches.root {m : Machine} {roots : List Item} {x : Item} (h : x ∈ roots) :
    Reaches m roots x := ⟨x, h, .refl⟩

theorem Reaches.edge {m : Machine} {roots : List Item} {x y : Item} (h : Reaches m roots x)
    (e : Edge m x y) : Reaches m roots y := by
  obtain ⟨root, hr, hx⟩ := h
  exact ⟨root, hr, hx.tail e⟩

theorem Reaches.accesses {m : Machine} {roots : List Item} {x : Item} (h : Reaches m roots x) :
    Accesses m roots x := by
  obtain ⟨root, hr, walk⟩ := h
  exact ⟨root, hr, Relation.ReflTransGen.mono (fun _ _ e => Access.edge e) _ _ walk⟩

theorem Accesses.root {m : Machine} {roots : List Item} {x : Item} (h : x ∈ roots) :
    Accesses m roots x := ⟨x, h, .refl⟩

theorem Accesses.edge {m : Machine} {roots : List Item} {x y : Item} (h : Accesses m roots x)
    (e : Access m x y) : Accesses m roots y := by
  obtain ⟨root, hr, hx⟩ := h
  exact ⟨root, hr, hx.tail e⟩

structure Region where
  scope : Scope → Prop
  cell : CellId → Prop

instance : Preorder Region where
  le r r' := (∀ s, r.scope s → r'.scope s) ∧ ∀ c, r.cell c → r'.cell c
  le_refl _ := ⟨fun _ => id, fun _ => id⟩
  le_trans _ _ _ h k := ⟨fun s hs => k.1 s (h.1 s hs), fun c hc => k.2 c (h.2 c hc)⟩

namespace Region

def withScope (r : Region) (s : Scope) : Region := { r with scope := fun t => r.scope t ∨ t = s }

def withCell (r : Region) (c : CellId) : Region := { r with cell := fun d => r.cell d ∨ d = c }

theorem le_withScope (r : Region) (s : Scope) : r ≤ r.withScope s := ⟨fun _ => .inl, fun _ => id⟩

theorem le_withCell (r : Region) (c : CellId) : r ≤ r.withCell c := ⟨fun _ => id, fun _ => .inl⟩

def ofItems (items : Item → Prop) : Region :=
  ⟨fun s => items (.scope s), fun c => items (.value (.cell c))⟩

end Region

/-- What values may contain besides data, cells and closures. -/
structure Policy where
  absent : Prop
  evals : Scope → Prop
  /-- Whether closures may lack a scope. Evaluation makes no such closure, a host may. -/
  detached : Prop

/-- All that a value refers to without going through a cell or a frame lies in the region. -/
inductive Value.Within (p : Policy) (r : Region) : Value → Prop where
  | null : p.absent → Within p r .null
  | nil : Within p r .nil
  | bool (b : Bool) : Within p r (.bool b)
  | int (n : Int64) : Within p r (.int n)
  | str (t : Text) : Within p r (.str t)
  | sym (name : Text) : Within p r (.sym name)
  | kw (name : Text) : Within p r (.kw name)
  | list {xs : Array Value} : (∀ v ∈ xs, Within p r v) → Within p r (.list xs)
  | vec {xs : Array Value} : (∀ v ∈ xs, Within p r v) → Within p r (.vec xs)
  | map {t : Table Key Value} : (∀ e ∈ t.entries, Within p r e.2) → Within p r (.map t)
  | cell {c : CellId} : r.cell c → Within p r (.cell c)
  | native {id : FunId} {op : Native} : (∀ s, op = .evalIn s → p.evals s) →
      Within p r (.native id op)
  | closure {id : FunId} {params : Params} {body : Value} {scope : Option Scope} :
      Within p r body → (∀ s, scope = some s → r.scope s) → (scope = none → p.detached) →
      Within p r (.closure id params body scope)

namespace Value.Within

variable {p q : Policy} {r r' : Region}

/-- A wider region and a laxer policy keep what they have. -/
theorem weaken {v : Value} (h : v.Within p r) (le : r ≤ r') (absent : p.absent → q.absent)
    (evals : ∀ s, p.evals s → q.evals s) (detached : p.detached → q.detached) :
    v.Within q r' := by
  induction h with
  | null ha => exact .null (absent ha)
  | nil => exact .nil
  | bool b => exact .bool b
  | int n => exact .int n
  | str t => exact .str t
  | sym name => exact .sym name
  | kw name => exact .kw name
  | list _ ih => exact .list ih
  | vec _ ih => exact .vec ih
  | map _ ih => exact .map ih
  | cell hc => exact .cell (le.2 _ hc)
  | native hs => exact .native fun s hop => evals s (hs s hop)
  | closure _ hs hd ih => exact .closure ih (fun s h => le.1 s (hs s h)) fun h => detached (hd h)

theorem mono {v : Value} (h : v.Within p r) (le : r ≤ r') : v.Within p r' :=
  h.weaken le id (fun _ => id) id

theorem ne_null {v : Value} (h : v.Within p r) (present : ¬p.absent) : v ≠ .null := by
  rintro rfl
  cases h with
  | null absent => exact present absent

theorem items {xs : Array Value} {v : Value} (h : (Value.list xs).Within p r) (hv : v ∈ xs) :
    v.Within p r := by
  cases h with
  | list hs => exact hs v hv

theorem list_iff {vs : List Value} :
    (Value.list ⟨vs⟩).Within p r ↔ ∀ v ∈ vs, v.Within p r := by
  constructor
  · intro h v hv
    exact h.items (List.mem_toArray.mpr hv)
  · intro h
    exact .list fun v hv => h v (List.mem_toArray.mp hv)

theorem of_items? {v : Value} {xs : Array Value} (h : v.Within p r) (hx : v.items? = some xs) :
    ∀ u ∈ xs, u.Within p r := by
  cases h with
  | list hs => exact Option.some.inj hx ▸ hs
  | vec hs => exact Option.some.inj hx ▸ hs
  | _ => cases hx

end Value.Within

def AllWithin (p : Policy) (r : Region) (vs : List Value) : Prop := ∀ v ∈ vs, v.Within p r

theorem AllWithin.mono {p : Policy} {r r' : Region} {vs : List Value} (h : AllWithin p r vs)
    (le : r ≤ r') : AllWithin p r' vs := by
  intro v hv
  exact (h v hv).mono le

structure Machine.Closed (p : Policy) (r : Region) (m : Machine) : Prop where
  parent : ∀ {s t}, r.scope s → s.parent = some t → r.scope t
  binding : ∀ {s name v}, r.scope s → m.local? s name = some v → v.Within p r
  content : ∀ {c}, r.cell c → (m.cellContent c).Within p r
  evals : ∀ {s}, p.evals s → r.scope s

def Item.Within (p : Policy) (r : Region) : Item → Prop
  | .value v => v.Within p r
  | .scope s => r.scope s

theorem Item.Within.mono {p : Policy} {r r' : Region} {x : Item} (h : x.Within p r)
    (le : r ≤ r') : x.Within p r' := by
  cases x with
  | value v => exact Value.Within.mono h le
  | scope s => exact le.1 s h

namespace Machine.Closed

variable {p q : Policy} {r : Region} {m : Machine}

theorem weaken (h : m.Closed p r) (absent : p.absent → q.absent)
    (evals : ∀ s, p.evals s → q.evals s) (detached : p.detached → q.detached)
    (inside : ∀ s, q.evals s → r.scope s) : m.Closed q r where
  parent := h.parent
  binding hs hv := (h.binding hs hv).weaken le_rfl absent evals detached
  content hc := (h.content hc).weaken le_rfl absent evals detached
  evals hs := inside _ hs

theorem access (h : m.Closed p r) {x y : Item} (hx : x.Within p r) (e : Access m x y) :
    y.Within p r := by
  cases e with
  | edge e =>
    cases e with
    | listItem hv => exact hx.of_items? rfl _ hv
    | vecItem hv => exact hx.of_items? rfl _ hv
    | mapValue he =>
      cases hx with
      | map hs => exact hs _ he
    | content c =>
      cases hx with
      | cell hc => exact h.content hc
    | body id params body scope =>
      cases hx with
      | closure hb _ _ => exact hb
    | captured id params body s =>
      cases hx with
      | closure _ hs _ => exact hs s rfl
    | parent ht => exact h.parent hx ht
    | binding hv => exact h.binding hx hv
  | evaluated id s =>
    cases hx with
    | native hs => exact h.evals (hs s rfl)

/-- No walk leaves a closed region. -/
theorem accesses (h : m.Closed p r) {roots : List Item} (hr : ∀ x ∈ roots, x.Within p r)
    {x : Item} (hx : Accesses m roots x) : x.Within p r := by
  obtain ⟨root, hroot, walk⟩ := hx
  induction walk with
  | refl => exact hr root hroot
  | tail _ e ih => exact h.access ih e

theorem lookup (h : m.Closed p r) {name : Text} {v : Value} :
    (s : Scope) → r.scope s → m.lookup name s = some v → v.Within p r
  | .frame id given none, hs, hv => h.binding hs (by simpa [Machine.lookup] using hv)
  | .frame id given (some parent), hs, hv => by
    rw [Machine.lookup] at hv
    split at hv
    · rename_i u hu
      exact h.binding hs (Option.some.inj hv ▸ hu)
    · exact h.lookup parent (h.parent hs rfl) hv

end Machine.Closed

section Walk

variable {m : Machine} {items : Item → Prop} {p : Policy}

mutual

theorem within_of_walk (closed : ∀ x y, items x → Edge m x y → items y)
    (absent : items (.value .null) → p.absent)
    (evals : ∀ id s, items (.value (.native id (.evalIn s))) → p.evals s) (detached : p.detached) :
    (v : Value) → items (.value v) → v.Within p (.ofItems items)
  | .null, h => .null (absent h)
  | .nil, _ => .nil
  | .bool b, _ => .bool b
  | .int n, _ => .int n
  | .str t, _ => .str t
  | .sym name, _ => .sym name
  | .kw name, _ => .kw name
  | .list ⟨xs⟩, h => .list fun v hv => allWithin_of_walk closed absent evals detached xs
      (fun _ hu => closed _ _ h (.listItem (Array.mem_toList_iff.mp hu))) v
      (Array.mem_toList_iff.mpr hv)
  | .vec ⟨xs⟩, h => .vec fun v hv => allWithin_of_walk closed absent evals detached xs
      (fun _ hu => closed _ _ h (.vecItem (Array.mem_toList_iff.mp hu))) v
      (Array.mem_toList_iff.mpr hv)
  | .map ⟨order, ⟨vs⟩⟩, h =>
    .map (entriesWithin_of_walk closed absent evals detached order.toList vs
      fun _ he => closed _ _ h (.mapValue he))
  | .cell _, h => .cell h
  | .native id _, h => .native fun s hop => evals id s (hop ▸ h)
  | .closure id params body scope, h =>
    .closure (within_of_walk closed absent evals detached body
        (closed _ _ h (.body id params body scope)))
      (fun s hs => closed _ _ h (hs ▸ .captured id params body s)) fun _ => detached

theorem allWithin_of_walk (closed : ∀ x y, items x → Edge m x y → items y)
    (absent : items (.value .null) → p.absent)
    (evals : ∀ id s, items (.value (.native id (.evalIn s))) → p.evals s) (detached : p.detached) :
    (vs : List Value) → (∀ v ∈ vs, items (.value v)) → AllWithin p (.ofItems items) vs
  | [], _ => fun _ hv => absurd hv List.not_mem_nil
  | u :: us, h => by
    have first := within_of_walk closed absent evals detached u (h u List.mem_cons_self)
    have others := allWithin_of_walk closed absent evals detached us
      fun w hw => h w (List.mem_cons_of_mem u hw)
    intro v hv
    rcases List.mem_cons.mp hv with rfl | hv
    · exact first
    · exact others v hv

theorem entriesWithin_of_walk (closed : ∀ x y, items x → Edge m x y → items y)
    (absent : items (.value .null) → p.absent)
    (evals : ∀ id s, items (.value (.native id (.evalIn s))) → p.evals s) (detached : p.detached) :
    (ks : List Key) → (vs : List Value) → (∀ e ∈ ks.zip vs, items (.value e.2)) →
    ∀ e ∈ ks.zip vs, e.2.Within p (.ofItems items)
  | [], _, _ => fun _ he => absurd he List.not_mem_nil
  | _ :: _, [], _ => fun _ he => absurd he List.not_mem_nil
  | k :: ks, v :: vs, h => by
    have first := within_of_walk closed absent evals detached v (h (k, v) List.mem_cons_self)
    have others := entriesWithin_of_walk closed absent evals detached ks vs
      fun w hw => h w (List.mem_cons_of_mem _ hw)
    intro e he
    rcases List.mem_cons.mp he with rfl | he
    · exact first
    · exact others e he

end

theorem item_within_of_walk (closed : ∀ x y, items x → Edge m x y → items y)
    (absent : items (.value .null) → p.absent)
    (evals : ∀ id s, items (.value (.native id (.evalIn s))) → p.evals s) (detached : p.detached) :
    (x : Item) → items x → x.Within p (.ofItems items)
  | .value v, h => within_of_walk closed absent evals detached v h
  | .scope _, h => h

/-- What a walk meets is a closed region. -/
theorem closed_of_walk (closed : ∀ x y, items x → Edge m x y → items y)
    (absent : items (.value .null) → p.absent)
    (evals : ∀ id s, items (.value (.native id (.evalIn s))) → p.evals s) (detached : p.detached)
    (evaluated : ∀ s, p.evals s → items (.scope s)) : m.Closed p (.ofItems items) where
  parent hs ht := closed _ _ hs (.parent ht)
  binding hs hv := within_of_walk closed absent evals detached _ (closed _ _ hs (.binding hv))
  content hc := within_of_walk closed absent evals detached _ (closed _ _ hc (.content _))
  evals hs := evaluated _ hs

/-- All that the roots lead to is a closed region. -/
theorem Machine.closed_accesses (m : Machine) (roots : List Item)
    (absent : Accesses m roots (.value .null) → p.absent)
    (evals : ∀ id s, Accesses m roots (.value (.native id (.evalIn s))) → p.evals s)
    (detached : p.detached) (inside : ∀ s, p.evals s → Accesses m roots (.scope s)) :
    m.Closed p (.ofItems (Accesses m roots)) ∧
      ∀ x ∈ roots, x.Within p (.ofItems (Accesses m roots)) := by
  have closed : ∀ x y, Accesses m roots x → Edge m x y → Accesses m roots y :=
    fun _ _ hx e => hx.edge (.edge e)
  exact ⟨closed_of_walk closed absent evals detached inside,
    fun x hx => item_within_of_walk closed absent evals detached x (.root hx)⟩

end Walk

abbrev Policy.lax : Policy := ⟨True, fun _ => True, True⟩

def Region.everything : Region := .ofItems fun _ => True

theorem Machine.closed_everything (m : Machine) : m.Closed .lax .everything :=
  closed_of_walk (fun _ _ _ _ => trivial) (fun _ => trivial) (fun _ _ _ => trivial) trivial
    fun _ _ => trivial

theorem Value.within_everything (v : Value) : v.Within .lax .everything :=
  within_of_walk (m := .empty) (fun _ _ _ _ => trivial) (fun _ => trivial) (fun _ _ _ => trivial)
    trivial v trivial

end MiniLisp
