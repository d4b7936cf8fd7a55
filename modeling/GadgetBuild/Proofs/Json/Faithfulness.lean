import Mathlib.Data.List.Pairwise
import GadgetBuild.Proofs.Json.Layout
import GadgetBuild.Template

/-!
Printed values. The text of a value with one entry a line is read as that value, and is its compact
text but for a layout that shows how deep each line is. So the list of modules in a template is read
as the modules that were asked for.
-/

namespace GadgetBuild.Json

/-- Values without reals. An integer has 64 bits. -/
inductive Plain : Value → Prop
  | null : Plain .null
  | bool (b : Bool) : Plain (.bool b)
  | integer (hlow : -2 ^ 63 ≤ n) (hhigh : n < 2 ^ 64) : Plain (.number (.integer n))
  | text (t : Text) : Plain (.text t)
  | list (h : ∀ v ∈ items, Plain v) : Plain (.list items)
  | object (h : ∀ f ∈ fields, Plain f.2) : Plain (.object fields)

theorem Plain.fits (h : Plain v) : Fits v.tokens := by
  induction h with
  | null | bool b | text t => nofun
  | integer hlow hhigh =>
    intro n hn
    obtain rfl := Token.number.inj (List.mem_singleton.mp hn)
    exact ⟨_, rfl, hlow, hhigh⟩
  | list _ ih => exact fits_list ih
  | object _ ih => exact fits_object ih

/-- Values whose objects have their fields in the order of the keys, each key once. -/
inductive Ordered : Value → Prop
  | null : Ordered .null
  | bool (b : Bool) : Ordered (.bool b)
  | number (n : Number) : Ordered (.number n)
  | text (t : Text) : Ordered (.text t)
  | list (h : ∀ v ∈ items, Ordered v) : Ordered (.list items)
  | object (hkeys : fields.Pairwise fun f g => f.1 < g.1) (h : ∀ f ∈ fields, Ordered f.2) :
    Ordered (.object fields)

/-- A field whose key is the greatest so far comes last. -/
theorem insertField_last {α : Type} {key : Text} {fields : List (Text × α)}
    (h : ∀ f ∈ fields, f.1 < key) (value : α) :
    insertField key value fields = fields ++ [(key, value)] := by
  induction fields with
  | nil => rfl
  | cons f fields ih =>
    obtain ⟨hf, hfields⟩ := List.forall_mem_cons.mp h
    have hne : key ≠ f.1 := by
      rintro rfl
      exact List.lt_irrefl _ hf
    rw [insertField, if_neg (List.lt_asymm hf), if_neg hne, ih hfields, List.cons_append]

theorem orderFields_of_increasing {α : Type} {fields : List (Text × α)}
    (h : fields.Pairwise fun f g => f.1 < g.1) : orderFields fields = fields := by
  induction fields using List.reverseRecOn with
  | nil => rfl
  | append_singleton fields f ih =>
    obtain ⟨hfields, -, hlast⟩ := List.pairwise_append.mp h
    rw [orderFields, List.foldl_concat, ← orderFields, ih hfields]
    exact insertField_last (fun g hg => hlast g hg f List.mem_cons_self) f.2

theorem itemValues?_itemDocs {items : List Value}
    (h : ∀ v ∈ items, (Doc.ofValue v).value? = some v) : itemValues? (itemDocs items) = some items := by
  induction items with
  | nil => rfl
  | cons v items ih =>
    obtain ⟨hv, hitems⟩ := List.forall_mem_cons.mp h
    rw [itemDocs, itemValues?, hv, Option.bind_some, ih hitems, Option.map_some]

theorem fieldValues?_fieldDocs {fields : List (Text × Value)}
    (h : ∀ f ∈ fields, (Doc.ofValue f.2).value? = some f.2) :
    fieldValues? (fieldDocs fields) = some fields := by
  induction fields with
  | nil => rfl
  | cons f fields ih =>
    obtain ⟨hf, hfields⟩ := List.forall_mem_cons.mp h
    rw [fieldDocs, fieldValues?, hf, Option.bind_some, ih hfields, Option.map_some]

theorem Ordered.value?_ofValue (h : Ordered v) : (Doc.ofValue v).value? = some v := by
  induction h with
  | null | bool b | number n | text t => rfl
  | list _ ih =>
    rw [Doc.ofValue, Doc.value?, if_pos rfl, itemValues?_itemDocs ih, Option.map_some]
  | object hkeys _ ih =>
    rw [Doc.ofValue, Doc.value?, if_pos rfl, fieldValues?_fieldDocs ih, Option.map_some,
      orderFields_of_increasing hkeys]

/-- A text that holds a value, laid out by the depth of its entries. -/
structure Shows (t : Text) (v : Value) : Prop where
  /-- The fields are read in the order in which the value has them. -/
  read : read t = ⟨Doc.ofValue v, true⟩
  parsed : Ordered v → parse? t = some v
  stripped : stripped .code t = compact v
  indented : Indented t
  literalsControlFree : LiteralsControlFree t

theorem Plain.shows (h : Plain v) : Shows (tabbed 0 v) v where
  read := read_spelled (laid_tabbed v h.fits 0).spelled
  parsed hordered := by
    rw [parse?, read_spelled (laid_tabbed v h.fits 0).spelled]
    exact hordered.value?_ofValue
  stripped := (laid_tabbed v h.fits 0).prints.stripped
  indented := ((laid_tabbed v h.fits 0).prints.ofLine (beginsEntry_tabbed 0 h.fits)).indented
  literalsControlFree :=
    ((laid_tabbed v h.fits 0).prints.ofLine (beginsEntry_tabbed 0 h.fits)).literalsControlFree

theorem parse?_tabbedTexts (ts : List Text) :
    parse? (tabbedTexts ts) = some (.list (ts.map .text)) := by
  refine (Plain.shows (.list fun v hv => ?_)).parsed (.list fun v hv => ?_)
  · obtain ⟨t, -, rfl⟩ := List.mem_map.mp hv
    exact .text t
  · obtain ⟨t, -, rfl⟩ := List.mem_map.mp hv
    exact .text t

open Template in
/-- Printing is faithful: the text of a value shows that value, and the text that stands for the
modules in a template is read as the list of them. -/
theorem tabbed_faithful : (∀ v, Plain v → Shows (tabbed 0 v) v) ∧
    ∀ s : Settings, ∃ modules, parse? modules = some (.list (s.modules.map .text)) ∧
      expand s = List.intercalate (footer s.footer) (footerPieces
        ((((s.template.getD standard).replace modulesMark modules).replace headerMark
          (header s.banner)).pieces footerMark)) :=
  ⟨fun _ h => h.shows, fun s => ⟨tabbedTexts s.modules, parse?_tabbedTexts s.modules, rfl⟩⟩

/-- A value with brackets, line feeds and tabs inside of its texts. -/
def nestedValue : Value :=
  .object [("a\n\"\\".toList, .list [.number (.integer (-3)), .bool true, .list [], .object []]),
    ("b: [".toList, .object [("".toList, .null), ("\t".toList, .text "x\n\t] ".toList)])]

theorem nestedValue_shown : Plain nestedValue ∧ Ordered nestedValue ∧
    Shows (tabbed 0 nestedValue) nestedValue ∧
    parse? (tabbed 0 nestedValue) = some nestedValue := by
  have hplain : Plain nestedValue := by
    refine .object ?_
    simp only [List.forall_mem_cons]
    refine ⟨.list ?_, .object ?_, nofun⟩
    · simp only [List.forall_mem_cons]
      exact ⟨.integer (by decide) (by decide), .bool true, .list nofun, .object nofun, nofun⟩
    · simp only [List.forall_mem_cons]
      exact ⟨.null, .text _, nofun⟩
  have hordered : Ordered nestedValue := by
    refine .object (by decide) ?_
    simp only [List.forall_mem_cons]
    refine ⟨.list ?_, .object (by decide) ?_, nofun⟩
    · simp only [List.forall_mem_cons]
      exact ⟨.number _, .bool true, .list nofun, .object .nil nofun, nofun⟩
    · simp only [List.forall_mem_cons]
      exact ⟨.null, .text _, nofun⟩
  have hshows := tabbed_faithful.1 nestedValue hplain
  exact ⟨hplain, hordered, hshows, hshows.parsed hordered⟩

end GadgetBuild.Json
