import Mathlib.Data.Finset.Basic
import Mathlib.Logic.Relation
import MiniLisp.Proofs.Equivalence
import MiniLisp.Proofs.RoundTrip

/-! Layouts of a value that reaches itself differ in how far they go round. One of them is right: it
cuts short the cells that it is inside of and no others. There are not enough cells to exhaust the
depth that printing starts with. -/
namespace MiniLisp

open Reader (spaced)

namespace Value

def word? (readable : Bool) : Value → Option (List UInt8)
  | nil => some (ascii "nil").bytes
  | bool b => some (if b then ascii "true" else ascii "false").bytes
  | int n => some (Text.ofInt n.toInt).bytes
  | str t => some (if readable then keyBytes (.string t) else t.bytes)
  | sym name => some name.bytes
  | kw name => some (keyBytes (.keyword name))
  | native _ op => some (ascii "#<function:" ++ op.name ++ ascii ">").bytes
  | closure _ _ _ _ => some (ascii "#<closure>").bytes
  | _ => none

def enclosed? : Value → Option (Bracket × List Value)
  | list xs => some (.round, xs.toList)
  | vec xs => some (.square, xs.toList)
  | map t => some (.curly, alternating t.entries)
  | _ => none

theorem word_or_enclosed_or_cell (readable : Bool) {v : Value} (present : v ≠ null) :
    (∃ bytes, v.word? readable = some bytes) ∨ (∃ b vs, v.enclosed? = some (b, vs)) ∨
      ∃ c, v = cell c := by
  cases v <;> simp_all [word?, enclosed?]

theorem not_enclosed_of_word {readable : Bool} {v : Value} {bytes : List UInt8}
    (h : v.word? readable = some bytes) : v.enclosed? = none := by
  cases v <;> simp_all [word?, enclosed?]

theorem word_toValue (readable : Bool) (k : Key) :
    ∃ bytes, k.toValue.word? readable = some bytes := by
  cases k with
  | string t => exact ⟨_, rfl⟩
  | keyword name => exact ⟨_, rfl⟩

theorem part_or_key_of_enclosed {v w : Value} {b : Bracket} {vs : List Value}
    (h : v.enclosed? = some (b, vs)) (hw : w ∈ vs) : w ∈ v.parts ∨ ∃ k : Key, w = k.toValue := by
  cases v with
  | list xs | vec xs =>
    cases h
    exact .inl hw
  | map t =>
    cases h
    obtain ⟨e, he, same⟩ := List.mem_flatMap.mp hw
    rcases List.mem_pair.mp same with rfl | rfl
    · exact .inr ⟨e.1, rfl⟩
    · exact .inl (List.of_mem_zip he).2
  | _ => cases h

end Value

inductive Exposes (cells : Array Value) : Value → Value → Prop where
  | item {v w : Value} {b : Bracket} {vs : List Value} :
      v.enclosed? = some (b, vs) → w ∈ vs → Exposes cells v w
  | content (c : CellId) : Exposes cells (.cell c) (Printer.content cells c)

def Shows (cells : Array Value) : Value → Value → Prop := Relation.ReflTransGen (Exposes cells)

inductive Layout where
  | word (bytes : List UInt8)
  | group (b : Bracket) (items : List Layout)
  | entered (c : CellId) (content : Layout)
  | cut (c : CellId)

namespace Layout

mutual

def text : Layout → List UInt8
  | word bytes => bytes
  | group b items => b.opener :: (spaced (texts items) ++ [b.closer])
  | entered _ content => (ascii "(atom ").bytes ++ (text content ++ [Bracket.round.closer])
  | cut _ => Printer.ellipsis.bytes

def texts : List Layout → List (List UInt8)
  | [] => []
  | l :: ls => text l :: texts ls

end

/-- Inside of the cells of the path, a cell is cut short if and only if the layout is inside of it
there. -/
inductive Precise : List CellId → Layout → Prop where
  | word (path : List CellId) (bytes : List UInt8) : Precise path (.word bytes)
  | group {path : List CellId} {b : Bracket} {items : List Layout} :
      (∀ l ∈ items, Precise path l) → Precise path (.group b items)
  | entered {path : List CellId} {c : CellId} {content : Layout} :
      c ∉ path → Precise (c :: path) content → Precise path (.entered c content)
  | cut {path : List CellId} {c : CellId} : c ∈ path → Precise path (.cut c)

inductive Cuts (c : CellId) : Layout → Prop where
  | here : Cuts c (.cut c)
  | item {b : Bracket} {items : List Layout} {l : Layout} :
      l ∈ items → Cuts c l → Cuts c (.group b items)
  | content {d : CellId} {l : Layout} : Cuts c l → Cuts c (.entered d l)

mutual

/-- The set of open cells behind a layout that is printed with one such set. A cell is added to it
in front of its content and taken out behind that, and only what is in the set is cut short. -/
def thread : Layout → Finset CellId → Option (Finset CellId)
  | word _, opened => some opened
  | group _ items, opened => threadAll items opened
  | entered c content, opened =>
    if c ∈ opened then none else (thread content (insert c opened)).map (·.erase c)
  | cut c, opened => if c ∈ opened then some opened else none

def threadAll : List Layout → Finset CellId → Option (Finset CellId)
  | [], opened => some opened
  | l :: ls, opened => (thread l opened).bind (threadAll ls)

end

mutual

/-- What is printed with one set of open cells leaves the set as it was, so it is laid out as if
every item had a path of its own. -/
theorem thread_eq_some_iff {l : Layout} {path : List CellId} {opened : Finset CellId} :
    l.thread path.toFinset = some opened ↔ opened = path.toFinset ∧ l.Precise path := by
  match l with
  | .word bytes =>
    rw [thread, Option.some.injEq, eq_comm]
    exact (and_iff_left (.word path bytes)).symm
  | .group b items =>
    rw [thread, threadAll_eq_some_iff]
    refine and_congr_right fun _ => ⟨.group, fun precise => ?_⟩
    cases precise with
    | group inside => exact inside
  | .entered c content =>
    rw [thread]
    by_cases inside : c ∈ path
    · rw [if_pos (List.mem_toFinset.mpr inside)]
      refine iff_of_false (by simp) fun ⟨_, precise⟩ => ?_
      cases precise with
      | entered outside _ => exact outside inside
    · rw [if_neg (mt List.mem_toFinset.mp inside), ← List.toFinset_cons, Option.map_eq_some_iff]
      constructor
      · rintro ⟨behind, threaded, rfl⟩
        obtain ⟨rfl, precise⟩ := thread_eq_some_iff.mp threaded
        rw [List.toFinset_cons, Finset.erase_insert (mt List.mem_toFinset.mp inside)]
        exact ⟨rfl, .entered inside precise⟩
      · rintro ⟨rfl, precise⟩
        cases precise with
        | entered _ precise =>
          refine ⟨_, thread_eq_some_iff.mpr ⟨rfl, precise⟩, ?_⟩
          rw [List.toFinset_cons, Finset.erase_insert (mt List.mem_toFinset.mp inside)]
  | .cut c =>
    rw [thread]
    by_cases inside : c ∈ path
    · rw [if_pos (List.mem_toFinset.mpr inside), Option.some.injEq, eq_comm]
      exact (and_iff_left (.cut inside)).symm
    · rw [if_neg (mt List.mem_toFinset.mp inside)]
      refine iff_of_false (by simp) fun ⟨_, precise⟩ => ?_
      cases precise with
      | cut within => exact inside within

theorem threadAll_eq_some_iff {ls : List Layout} {path : List CellId} {opened : Finset CellId} :
    threadAll ls path.toFinset = some opened ↔
      opened = path.toFinset ∧ ∀ l ∈ ls, l.Precise path := by
  match ls with
  | [] =>
    rw [threadAll, Option.some.injEq, eq_comm]
    simp
  | l :: ls =>
    rw [threadAll, Option.bind_eq_some_iff, List.forall_mem_cons]
    constructor
    · rintro ⟨behind, first, rest⟩
      obtain ⟨rfl, precise⟩ := thread_eq_some_iff.mp first
      obtain ⟨rfl, others⟩ := threadAll_eq_some_iff.mp rest
      exact ⟨rfl, precise, others⟩
    · rintro ⟨rfl, precise, others⟩
      exact ⟨_, thread_eq_some_iff.mpr ⟨rfl, precise⟩, threadAll_eq_some_iff.mpr ⟨rfl, others⟩⟩

end

end Layout

mutual

/-- The layout shows the value, and the contents of the cells that it enters. -/
inductive Unfolds (cells : Array Value) (readable : Bool) : Value → Layout → Prop where
  | word {v : Value} {bytes : List UInt8} : v.word? readable = some bytes →
      Unfolds cells readable v (.word bytes)
  | group {v : Value} {b : Bracket} {vs : List Value} {ls : List Layout} :
      v.enclosed? = some (b, vs) → UnfoldsAll cells readable vs ls →
      Unfolds cells readable v (.group b ls)
  | entered {c : CellId} {l : Layout} : Unfolds cells readable (Printer.content cells c) l →
      Unfolds cells readable (.cell c) (.entered c l)
  | cut (c : CellId) : Unfolds cells readable (.cell c) (.cut c)

inductive UnfoldsAll (cells : Array Value) (readable : Bool) : List Value → List Layout → Prop where
  | nil : UnfoldsAll cells readable [] []
  | cons {v : Value} {l : Layout} {vs : List Value} {ls : List Layout} :
      Unfolds cells readable v l → UnfoldsAll cells readable vs ls →
      UnfoldsAll cells readable (v :: vs) (l :: ls)

end

variable {cells : Array Value} {readable : Bool}

mutual

/-- A value has one precise layout. -/
theorem Unfolds.unique {v : Value} {l l' : Layout} {path : List CellId}
    (h : Unfolds cells readable v l) (h' : Unfolds cells readable v l') (precise : l.Precise path)
    (precise' : l'.Precise path) : l = l' := by
  match h with
  | .word bytes =>
    cases h' with
    | word bytes' => rw [Option.some.inj (bytes.symm.trans bytes')]
    | group enclosed _ =>
      rw [Value.not_enclosed_of_word bytes] at enclosed
      cases enclosed
    | entered _ => cases bytes
    | cut _ => cases bytes
  | .group enclosed items =>
    cases h' with
    | word bytes =>
      rw [Value.not_enclosed_of_word bytes] at enclosed
      cases enclosed
    | group enclosed' items' =>
      obtain ⟨rfl, rfl⟩ := Prod.mk.inj (Option.some.inj (enclosed.symm.trans enclosed'))
      cases precise with
      | group all =>
        cases precise' with
        | group all' => rw [items.unique items' all all']
    | entered _ => cases enclosed
    | cut _ => cases enclosed
  | .entered content =>
    cases precise with
    | entered outside precise =>
      cases h' with
      | word bytes => cases bytes
      | group enclosed _ => cases enclosed
      | entered content' =>
        cases precise' with
        | entered _ precise' => rw [content.unique content' precise precise']
      | cut c =>
        cases precise' with
        | cut inside => exact absurd inside outside
  | .cut c =>
    cases precise with
    | cut inside =>
      cases h' with
      | word bytes => cases bytes
      | group enclosed _ => cases enclosed
      | entered _ =>
        cases precise' with
        | entered outside _ => exact absurd inside outside
      | cut _ => rfl

theorem UnfoldsAll.unique {vs : List Value} {ls ls' : List Layout} {path : List CellId}
    (h : UnfoldsAll cells readable vs ls) (h' : UnfoldsAll cells readable vs ls')
    (precise : ∀ l ∈ ls, l.Precise path) (precise' : ∀ l ∈ ls', l.Precise path) : ls = ls' := by
  match h with
  | .nil =>
    cases h'
    rfl
  | .cons first rest =>
    cases h' with
    | cons first' rest' =>
      rw [List.forall_mem_cons] at precise precise'
      rw [first.unique first' precise.1 precise'.1, rest.unique rest' precise.2 precise'.2]

end

mutual

/-- What a precise layout cuts short is open already, or is met inside of its own content. -/
theorem Unfolds.cuts {v : Value} {l : Layout} {path : List CellId} {c : CellId}
    (h : Unfolds cells readable v l) (precise : l.Precise path) (cuts : l.Cuts c) :
    Shows cells v (.cell c) ∧ (c ∈ path ∨ Shows cells (Printer.content cells c) (.cell c)) := by
  match h with
  | .word _ => cases cuts
  | .group enclosed items =>
    cases precise with
    | group all =>
      cases cuts with
      | item hl cuts =>
        obtain ⟨w, hw, shown, met⟩ := items.cuts all hl cuts
        exact ⟨.head (.item enclosed hw) shown, met⟩
  | @Unfolds.entered _ _ d _ content =>
    cases precise with
    | entered _ precise =>
      cases cuts with
      | content cuts =>
        obtain ⟨shown, opened | cycle⟩ := content.cuts precise cuts
        · refine ⟨.head (.content d) shown, ?_⟩
          rcases List.mem_cons.mp opened with rfl | opened
          · exact .inr shown
          · exact .inl opened
        · exact ⟨.head (.content d) shown, .inr cycle⟩
  | .cut _ =>
    cases precise with
    | cut inside =>
      cases cuts with
      | here => exact ⟨.refl, .inl inside⟩

theorem UnfoldsAll.cuts {vs : List Value} {ls : List Layout} {path : List CellId} {c : CellId}
    {l : Layout} (h : UnfoldsAll cells readable vs ls) (precise : ∀ l ∈ ls, l.Precise path)
    (hl : l ∈ ls) (cuts : l.Cuts c) :
    ∃ w ∈ vs, Shows cells w (.cell c) ∧
      (c ∈ path ∨ Shows cells (Printer.content cells c) (.cell c)) := by
  match h with
  | .cons (v := v) first rest =>
    rw [List.forall_mem_cons] at precise
    rcases List.mem_cons.mp hl with same | hl
    · exact ⟨v, List.mem_cons_self, first.cuts precise.1 (same ▸ cuts)⟩
    · obtain ⟨w, hw, met⟩ := rest.cuts precise.2 hl cuts
      exact ⟨w, List.mem_cons_of_mem v hw, met⟩

end

/-- No cell that printing comes to is met inside of its own content. -/
def Acyclic (cells : Array Value) (v : Value) : Prop :=
  ∀ c, Shows cells v (.cell c) → ¬Shows cells (Printer.content cells c) (.cell c)

theorem Acyclic.of_exposes {v w : Value} (h : Acyclic cells v) (e : Exposes cells v w) :
    Acyclic cells w := fun c shown => h c (.head e shown)

mutual

/-- Without cycles the layout that cuts nothing short is precise, as the path only holds cells in
whose content the value is. -/
theorem Unfolds.precise_of_acyclic {v : Value} {l : Layout} {path : List CellId}
    (h : Unfolds cells readable v l) (acyclic : Acyclic cells v)
    (within : ∀ c ∈ path, Shows cells (Printer.content cells c) v) (full : ∀ c, ¬l.Cuts c) :
    l.Precise path := by
  match h with
  | .word bytes => exact .word path _
  | .group enclosed items =>
    exact .group (items.precise_of_acyclic
      (fun w hw => acyclic.of_exposes (.item enclosed hw))
      (fun w hw c hc => (within c hc).tail (.item enclosed hw))
      fun l hl c cuts => full c (.item hl cuts))
  | @Unfolds.entered _ _ c _ content =>
    refine .entered (fun inside => acyclic c .refl (within c inside)) ?_
    refine content.precise_of_acyclic (acyclic.of_exposes (.content c)) ?_
      fun d cuts => full d (.content cuts)
    intro d hd
    rcases List.mem_cons.mp hd with rfl | hd
    · exact .refl
    · exact (within d hd).tail (.content c)
  | .cut c => exact absurd .here (full c)

theorem UnfoldsAll.precise_of_acyclic {vs : List Value} {ls : List Layout} {path : List CellId}
    (h : UnfoldsAll cells readable vs ls) (acyclic : ∀ w ∈ vs, Acyclic cells w)
    (within : ∀ w ∈ vs, ∀ c ∈ path, Shows cells (Printer.content cells c) w)
    (full : ∀ l ∈ ls, ∀ c, ¬l.Cuts c) : ∀ l ∈ ls, l.Precise path := by
  match h with
  | .nil =>
    intro l hl
    cases hl
  | .cons first rest =>
    rw [List.forall_mem_cons] at acyclic within full
    exact List.forall_mem_cons.mpr
      ⟨first.precise_of_acyclic acyclic.1 within.1 full.1,
        rest.precise_of_acyclic acyclic.2 within.2 full.2⟩

end

namespace Printer

variable {cell : CellPrinter} {path : List CellId} {v : Value}

/-- The value has a precise layout inside of the cells of a path, and its text is what printing
puts behind any text. -/
def Follows (cells : Array Value) (readable : Bool) (cell : CellPrinter) (path : List CellId)
    (v : Value) : Prop :=
  ∃ l, Unfolds cells readable v l ∧ l.Precise path ∧ Puts readable cell v l.text

theorem puts_word {bytes : List UInt8} (h : v.word? readable = some bytes) :
    Puts readable cell v bytes := by
  intro out
  cases v with
  | str t =>
    cases h
    refine ⟨_, rfl, ?_⟩
    cases readable with
    | true => exact bytes_appendQuoted out t
    | false => exact Text.bytes_append out t
  | kw name =>
    cases h
    exact ⟨_, rfl, bytes_appendKey out (.keyword name)⟩
  | native _ op =>
    cases h
    refine ⟨_, rfl, ?_⟩
    simp
  | nil | bool _ | int _ | sym _ | closure _ _ _ _ =>
    cases h
    exact ⟨_, rfl, Text.bytes_append out _⟩
  | _ => cases h

theorem appendValue_enclosed {b : Bracket} {vs : List Value} (h : v.enclosed? = some (b, vs))
    (cell : CellPrinter) (out : Text) :
    appendValue readable cell out v =
      (appendItems readable cell (ascii " ") (out.push b.opener) vs).bind fun t =>
        .ok (t.push b.closer) := by
  cases v with
  | list xs | vec xs =>
    cases h
    rfl
  | map t =>
    cases h
    exact appendValue_map t cell out
  | _ => cases h

theorem follows_word {bytes : List UInt8} (h : v.word? readable = some bytes) :
    Follows cells readable cell path v :=
  ⟨.word bytes, .word h, .word path bytes, puts_word h⟩

theorem follows_items {vs : List Value} (h : ∀ v ∈ vs, Follows cells readable cell path v) :
    ∃ ls, UnfoldsAll cells readable vs ls ∧ (∀ l ∈ ls, l.Precise path) ∧
      List.Forall₂ (Puts readable cell) vs (Layout.texts ls) := by
  induction vs with
  | nil => exact ⟨[], .nil, by simp, .nil⟩
  | cons v vs ih =>
    rw [List.forall_mem_cons] at h
    obtain ⟨⟨l, unfolds, precise, puts⟩, others⟩ := h
    obtain ⟨ls, unfoldsAll, all, putsAll⟩ := ih others
    exact ⟨l :: ls, .cons unfolds unfoldsAll, List.forall_mem_cons.mpr ⟨precise, all⟩,
      .cons puts putsAll⟩

theorem follows_enclosed {b : Bracket} {vs : List Value} (h : v.enclosed? = some (b, vs))
    (hvs : ∀ w ∈ vs, Follows cells readable cell path w) : Follows cells readable cell path v := by
  obtain ⟨ls, unfolds, precise, puts⟩ := follows_items hvs
  exact ⟨.group b ls, .group h unfolds, .group precise,
    Puts.bracketed b (appendValue_enclosed h cell) (appendItems_puts puts)⟩

section Root

variable {root : Value}

/-- The values of a printed value are printed, if the cells are. -/
theorem follows_value (present : ∀ w, Shows cells root w → w ≠ .null)
    (hc : ∀ c, Shows cells root (.cell c) → Follows cells readable cell path (.cell c))
    (v : Value) : Shows cells root v → Follows cells readable cell path v := by
  refine Value.of_parts (P := fun v => Shows cells root v → Follows cells readable cell path v)
    (fun v ih shown => ?_) v
  rcases v.word_or_enclosed_or_cell readable (present v shown) with
    ⟨bytes, word⟩ | ⟨b, vs, enclosed⟩ | ⟨c, rfl⟩
  · exact follows_word word
  · refine follows_enclosed enclosed fun w hw => ?_
    rcases Value.part_or_key_of_enclosed enclosed hw with part | ⟨k, rfl⟩
    · exact ih w part (shown.tail (.item enclosed hw))
    · obtain ⟨bytes, word⟩ := Value.word_toValue readable k
      exact follows_word word
  · exact hc c shown

/-- There are not more cells to enter than the store has, so the depth is not used up. -/
theorem depth_pos {entered : List CellId} {depth : Nat} (nodup : entered.Nodup)
    (made : ∀ c ∈ entered, c.index < cells.size)
    (enough : entered.length + depth = cells.size + 1) : 0 < depth := by
  have distinct : (entered.map CellId.index).Nodup := by
    refine nodup.map fun c d same => ?_
    cases c
    cases d
    cases same
    rfl
  have inside : entered.map CellId.index ⊆ List.range cells.size := by
    intro i hi
    obtain ⟨c, hc, rfl⟩ := List.mem_map.mp hi
    exact List.mem_range.mpr (made c hc)
  have few := (distinct.subperm inside).length_le
  rw [List.length_map, List.length_range] at few
  omega

/-- By induction on the depth that is left: with every cell that is entered it is one less and the
path is one longer. -/
theorem follows_cell (present : ∀ w, Shows cells root w → w ≠ .null) {depth : Nat}
    {entered : List CellId} (nodup : entered.Nodup) (made : ∀ c ∈ entered, c.index < cells.size)
    (enough : entered.length + depth = cells.size + 1) {c : CellId}
    (shown : Shows cells root (.cell c)) :
    Follows cells readable (appendCell cells readable depth entered) entered (.cell c) := by
  induction depth generalizing entered c with
  | zero => exact absurd (depth_pos nodup made enough) (Nat.lt_irrefl 0)
  | succ depth ih =>
    by_cases inside : c ∈ entered
    · refine ⟨.cut c, .cut c, .cut inside, fun out => ⟨out ++ ellipsis, ?_, Text.bytes_append _ _⟩⟩
      rw [appendValue, appendCell, if_pos inside]
    · have there : c.index < cells.size := by
        by_contra beyond
        refine present _ (shown.tail (.content c)) ?_
        rw [content, Array.getElem?_eq_none (Nat.not_lt.mp beyond)]
        rfl
      have deeper : ∀ d, Shows cells root (.cell d) →
          Follows cells readable (appendCell cells readable depth (c :: entered)) (c :: entered)
            (.cell d) := by
        refine fun d hd => ih (List.nodup_cons.mpr ⟨inside, nodup⟩)
          (List.forall_mem_cons.mpr ⟨there, made⟩) ?_ hd
        rw [List.length_cons]
        omega
      obtain ⟨l, unfolds, precise, writes⟩ :=
        follows_value present deeper (content cells c) (shown.tail (.content c))
      refine ⟨.entered c l, .entered unfolds, .entered inside precise, fun out => ?_⟩
      obtain ⟨t, ht, bytes⟩ := writes (out ++ ascii "(atom ")
      refine ⟨t.push Bracket.round.closer, ?_, ?_⟩
      · rw [appendValue, appendCell, if_neg inside, ht]
        rfl
      · rw [Text.bytes_push, bytes, Text.bytes_append, Layout.text]
        simp

end Root

theorem follows_root (present : ∀ w, Shows cells v w → w ≠ .null) (readable : Bool) :
    Follows cells readable (appendCell cells readable (cells.size + 1) []) [] v :=
  follows_value present
    (fun _ shown => follows_cell present .nil (by simp) (by simp) shown) v .refl

end Printer

/-- A value without absent parts is printed, however it reaches itself. What is printed is the text
of its precise layout, of which there is one. Printing with one set of open cells chooses the same
layout, since behind every value the set is what it was. Only a cell that is met inside of its own
content is cut short, so without such cells the layout is the one that cuts nothing short. -/
theorem printing_is_path_precise (cells : Array Value) (readable : Bool) {v : Value}
    (present : ∀ w, Shows cells v w → w ≠ .null) :
    ∃ l t, printValue cells readable v = .ok t ∧ t.bytes = l.text ∧
      (∀ l', Unfolds cells readable v l' ∧ l'.Precise [] ↔ l' = l) ∧
      (∀ w l' path opened, Unfolds cells readable w l' →
        (l'.thread path.toFinset = some opened ↔ opened = path.toFinset ∧ l'.Precise path)) ∧
      (∀ c, l.Cuts c → Shows cells (Printer.content cells c) (.cell c)) ∧
      (Acyclic cells v →
        ∀ l', (Unfolds cells readable v l' ∧ ∀ c, ¬l'.Cuts c) ↔ l' = l) := by
  obtain ⟨l, unfolds, precise, writes⟩ := Printer.follows_root present readable
  obtain ⟨t, printed, bytes⟩ := writes .empty
  have cycles (c : CellId) (cuts : l.Cuts c) :
      Shows cells v (.cell c) ∧ Shows cells (Printer.content cells c) (.cell c) := by
    obtain ⟨shown, inside | cycle⟩ := unfolds.cuts precise cuts
    · cases inside
    · exact ⟨shown, cycle⟩
  refine ⟨l, t, printed, by rw [bytes]; rfl, fun l' => ⟨?_, ?_⟩,
    fun _ _ _ _ _ => Layout.thread_eq_some_iff, fun c cuts => (cycles c cuts).2,
    fun acyclic l' => ⟨?_, ?_⟩⟩
  · rintro ⟨unfolds', precise'⟩
    exact unfolds'.unique unfolds precise' precise
  · rintro rfl
    exact ⟨unfolds, precise⟩
  · rintro ⟨unfolds', full⟩
    have precise' : l'.Precise [] := unfolds'.precise_of_acyclic acyclic (by simp) full
    exact unfolds'.unique unfolds precise' precise
  · rintro rfl
    exact ⟨unfolds, fun c cuts => acyclic c (cycles c cuts).1 (cycles c cuts).2⟩

/-- A cell that holds itself between two occurrences of another cell. -/
theorem shared_cell_is_printed_in_full :
    let cells : Array Value := #[.vec #[.cell ⟨1⟩, .cell ⟨0⟩, .cell ⟨1⟩], .str (ascii "s")]
    (∀ w, Shows cells (.cell ⟨0⟩) w → w ≠ .null) ∧
      printValue cells true (.cell ⟨0⟩) =
        .ok (ascii "(atom [(atom \"s\") (atom ...) (atom \"s\")])") := by
  intro cells
  have shown (w : Value) (shows : Shows cells (.cell ⟨0⟩) w) :
      w = .cell ⟨0⟩ ∨ w = .cell ⟨1⟩ ∨ w = .vec #[.cell ⟨1⟩, .cell ⟨0⟩, .cell ⟨1⟩] ∨
        w = .str (ascii "s") := by
    induction shows with
    | refl => exact .inl rfl
    | tail _ exposes ih =>
      cases exposes with
      | item enclosed hw =>
        rcases ih with rfl | rfl | rfl | rfl <;> cases enclosed
        simp only [List.mem_cons, List.not_mem_nil, or_false] at hw
        rcases hw with rfl | rfl | rfl <;> simp
      | content c =>
        rcases ih with same | same | same | same <;> cases same
        · exact .inr (.inr (.inl rfl))
        · exact .inr (.inr (.inr rfl))
  have present (w : Value) (shows : Shows cells (.cell ⟨0⟩) w) : w ≠ .null := by
    rcases shown w shows with rfl | rfl | rfl | rfl <;> simp
  refine ⟨present, ?_⟩
  obtain ⟨l, t, printed, bytes, layout, _⟩ := printing_is_path_precise cells true present
  let shared : Layout := .entered ⟨1⟩ (.word (keyBytes (.string (ascii "s"))))
  let whole : Layout := .entered ⟨0⟩ (.group .square [shared, .cut ⟨0⟩, shared])
  have string : Unfolds cells true (.cell ⟨1⟩) shared := .entered (.word rfl)
  have unfolds : Unfolds cells true (.cell ⟨0⟩) whole :=
    .entered (.group rfl (.cons string (.cons (.cut ⟨0⟩) (.cons string .nil))))
  have inside : shared.Precise [⟨0⟩] := .entered (by decide) (.word _ _)
  have precise : whole.Precise [] := by
    refine .entered (by decide) (.group ?_)
    simp only [List.forall_mem_cons]
    exact ⟨inside, .cut (by decide), inside, by simp⟩
  rw [printed, ← Text.ofBytes_bytes t, bytes, ← (layout whole).mp ⟨unfolds, precise⟩]
  rfl

end MiniLisp
