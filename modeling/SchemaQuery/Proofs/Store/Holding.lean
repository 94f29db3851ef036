import SchemaQuery.Json.Basic

/-!
# What a store holds under a name

The tables of one store and the collections of the other are rows with key fields. A change of a
store is told by what it does to the rows that are held under one name; that there are no such rows,
or that their key fields are others than those meant, is not spoken of.
-/

namespace SchemaQuery

/-- Rows, and the fields that make up their keys. -/
structure Holding where
  keyFields : List String
  rows : List Record

variable {S : Type} {held? : S → Option Holding} {fields : List String}
  {q q' : List Record → List Record → Prop} {store mid after : S}

/-- Whether these are the key fields, in whatever order. -/
def Holding.IsKeyedBy (held : Holding) (fields : List String) : Prop :=
  ∀ field, field ∈ held.keyFields ↔ field ∈ fields

/-- The rows with these key fields are still held, and are related to those before. -/
def Carries (held? : S → Option Holding) (fields : List String)
    (q : List Record → List Record → Prop) (store after : S) : Prop :=
  ∀ held, held? store = some held → held.IsKeyedBy fields →
    ∃ rows, held? after = some { held with rows } ∧ q held.rows rows

namespace Carries

theorem of_eq (hrefl : ∀ rows, q rows rows) (hsame : held? after = held? store) :
    Carries held? fields q store after :=
  fun held hheld _ => ⟨held.rows, hsame.trans hheld, hrefl _⟩

theorem refl (hrefl : ∀ rows, q rows rows) (store : S) : Carries held? fields q store store :=
  .of_eq hrefl rfl

theorem trans (htrans : ∀ ⦃a b c⦄, q a b → q b c → q a c)
    (hfirst : Carries held? fields q store mid) (hsecond : Carries held? fields q mid after) :
    Carries held? fields q store after := by
  intro held hheld hfields
  obtain ⟨rows, hmid, hq⟩ := hfirst held hheld hfields
  obtain ⟨final, hafter, hq'⟩ := hsecond _ hmid hfields
  exact ⟨final, hafter, htrans hq hq'⟩

theorem mono (hcarries : Carries held? fields q store after)
    (hq : ∀ old new, q old new → q' old new) : Carries held? fields q' store after := by
  intro held hheld hfields
  obtain ⟨rows, hafter, hrows⟩ := hcarries held hheld hfields
  exact ⟨rows, hafter, hq _ _ hrows⟩

theorem and (hcarries : Carries held? fields q store after)
    (hcarries' : Carries held? fields q' store after) :
    Carries held? fields (fun old new => q old new ∧ q' old new) store after := by
  intro held hheld hfields
  obtain ⟨rows, hafter, hq⟩ := hcarries held hheld hfields
  obtain ⟨rows', hafter', hq'⟩ := hcarries' held hheld hfields
  obtain rfl : rows = rows' :=
    (Holding.mk.injEq .. ▸ Option.some.inj (hafter.symm.trans hafter')).2
  exact ⟨rows, hafter, hq, hq'⟩

end Carries

end SchemaQuery
