import MiniLisp.Table
import MiniLisp.Text.Order

/-! The parameters of a function come with an index of their names, made once with the function. -/
namespace MiniLisp

structure Params where
  names : List Text
  order : KeyOrder Text
  order_eq : order = KeyOrder.ofList names

namespace Params

def ofNames (names : List Text) : Params := ⟨names, .ofList names, rfl⟩

/-- Binds the parameters to arguments. A name that is there twice gets the last of its own. -/
def bind {α : Type} (p : Params) (args : List α) : Table Text α :=
  if p.order.size = p.names.length then ⟨p.order, args.toArray⟩ else .ofPairs (p.names.zip args)

theorem entries_bind {α : Type} (p : Params) (args : List α) :
    (p.bind args).entries = Assoc.ofPairs (p.names.zip args) := by
  rw [bind]
  split
  · rename_i all
    have order : p.order.toList = p.names := by
      rw [p.order_eq] at all ⊢
      exact (KeyOrder.sublist_ofList p.names).eq_of_length (by simpa using all)
    have nodup : (Assoc.keys (p.names.zip args)).Nodup := by
      have short : (Assoc.keys (p.names.zip args)).Sublist p.names := by
        rw [Assoc.keys_zip]
        exact List.take_sublist _ _
      exact (order ▸ p.order.nodup_toList).sublist short
    rw [Assoc.ofPairs_of_nodup nodup, Table.entries, order]
  · exact Table.entries_ofPairs _

end Params

end MiniLisp
