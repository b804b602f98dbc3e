/-
Tags and constructs that were written are read back. The two halves of the
way are independent: a text gives back the value that it was written from
(Json/RoundTrip.lean), and here the value of a document gives back what the
document is of. A member that is not there is written as null, which is told
from every member that is there, the empty text among them.
-/
import ScanTrace.Tag.Document
import ScanTrace.Proofs.Json.RoundTrip

namespace ScanTrace

open Json (Value Entries)

-- ============================================================ constructs

namespace Construct

theorem ofJson?_toJson (c : Construct) : ofJson? c.toJson = some c := by
  simp [toJson, Value.ofEntries, Value.ofString, ofJson?, Entries.namesReadable,
    Entries.once?, Entries.valuesOf, Value.text?]

theorem numberless_toJson (c : Construct) : c.toJson.Numberless := by
  refine Value.numberless_ofEntries ?_
  intro e he
  rcases List.mem_pair.mp he with rfl | rfl
  · exact Value.numberless_ofString c.kind
  · exact Value.numberless_ofString c.name

end Construct

-- ================================================================== tags

namespace Tag

/-- A member that may be missing is read back if one that is there is, and is not
written as null. -/
theorem nullable_orNull {α : Type} {read : Value → Option α} {write : α → Value}
    (hread : ∀ a, read (write a) = some a) (hwrite : ∀ a, write a ≠ .null) (o : Option α) :
    nullable read (orNull write o) = some o := by
  cases o with
  | none => rfl
  | some a =>
    have hsome : nullable read (write a) = (read (write a)).map some := by
      unfold nullable
      split
      · next hnull => exact absurd hnull (hwrite a)
      · rfl
    rw [orNull, hsome, hread]
    rfl

theorem nullable_construct (o : Option Construct) :
    nullable Construct.ofJson? (orNull Construct.toJson o) = some o := by
  have hwrite : ∀ c, Construct.toJson c ≠ .null := by simp [Construct.toJson, Value.ofEntries]
  exact nullable_orNull Construct.ofJson?_toJson hwrite o

theorem nullable_text (o : Option String) :
    nullable Value.text? (orNull Value.ofString o) = some o := by
  have hread : ∀ s, (Value.ofString s).text? = some s := fun _ => rfl
  have hwrite : ∀ s, Value.ofString s ≠ .null := by simp [Value.ofString]
  exact nullable_orNull hread hwrite o

theorem ofJson?_toJson (tag : Tag) : ofJson? tag.toJson = some tag := by
  have hvalues : ofValues? (.ofString tag.name) (.ofString tag.kind) (.bool tag.fileScope)
      (orNull Construct.toJson tag.scope) (orNull Value.ofString tag.inheritance)
      (orNull Value.ofString tag.access) (orNull Value.ofString tag.implementation)
      (orNull Construct.toJson tag.typeRef) = some tag := by
    simp [ofValues?, nullable_construct, nullable_text, Value.ofString, Value.text?, Value.bool?]
  refine Eq.trans ?_ hvalues
  simp [toJson, Value.ofEntries, ofJson?, Entries.namesReadable, Entries.once?,
    Entries.optional?, Entries.valuesOf]

theorem numberless_orNull {α : Type} {write : α → Value} (h : ∀ a, (write a).Numberless)
    (o : Option α) : (orNull write o).Numberless := by
  cases o with
  | none =>
    intro t ht
    rw [orNull, Value.tokens] at ht
    rw [List.mem_singleton.mp ht]
    rfl
  | some a => exact h a

theorem numberless_toJson (tag : Tag) : tag.toJson.Numberless := by
  have hbool := Value.numberless_bool tag.fileScope
  have htext := Value.numberless_ofString
  refine Value.numberless_ofEntries ?_
  simp only [List.forall_mem_cons]
  exact ⟨htext _, htext _, hbool, numberless_orNull Construct.numberless_toJson _,
    numberless_orNull htext _, numberless_orNull htext _, numberless_orNull htext _,
    numberless_orNull Construct.numberless_toJson _, nofun⟩

/-- The names in a document of a tag, in their order. -/
def names : List String :=
  ["name", "kind_name", "file_scope", "scope", "inheritance", "access", "implementation",
   "type_ref"]

end Tag

/-- Every tag, and every construct, is read back from the text of its document,
whatever characters its texts are made of and whatever of it is missing. The
text of a tag is a JSON object with all the names of a tag, in their order. -/
theorem documents_read_back :
    (∀ tag : Tag, Tag.read? tag.toJson.text = some tag
      ∧ ∃ entries, Json.read? tag.toJson.text = some (.object entries)
        ∧ entries.map Prod.fst = Tag.names.map some)
    ∧ ∀ c : Construct, Construct.read? c.toJson.text = some c := by
  have htag : ∀ tag : Tag, Json.read? tag.toJson.text = some tag.toJson :=
    fun tag => Json.read?_text tag.numberless_toJson
  refine ⟨?_, ?_⟩
  · intro tag
    refine ⟨?_, _, htag tag, rfl⟩
    rw [Tag.read?, htag]
    exact tag.ofJson?_toJson
  · intro c
    rw [Construct.read?, Json.read?_text c.numberless_toJson]
    exact c.ofJson?_toJson

end ScanTrace
