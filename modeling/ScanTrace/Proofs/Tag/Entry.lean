/-
What a trace entry tells. An entry shows the name, the kind and the scope of
a tag, and of its other attributes those whose fields are on; a tag that
differs in nothing else has the same entry. The other way round an entry is
uniquely readable, although its segments are optional and two of them carry
no label of their own.

# Reading an entry back

The first opening bracket ends the head, and a closing one ends each
segment, so the head and the list of segments come out of the flat text as
long as none of the shown texts has a bracket in it (`segments_unique`). A
head falls apart at its first colon. A segment is always a construct, a kind
and a name with a colon between them: "access:public" is the construct
public of the kind access, "file:" has an empty name. So the segments are a
list of constructs (`details`), and since every optional attribute has a kind
of its own, each is found in the list by asking for its kind
(`details_found`). That takes a type reference whose kind is none of the four
that the labels use. The scope is the first of the constructs, and nothing
tells it from a type reference but that it is there.
-/
import ScanTrace.Tag.Entry
import ScanTrace.Proofs.Text.Cuts

namespace ScanTrace

-- ============================================================== constructs

namespace Construct

/-- Without a colon in its kind a construct is read back from its text. -/
theorem eq_of_text {c d : Construct} (hc : ':' ∉ c.kind.toList) (hd : ':' ∉ d.kind.toList)
    (h : c.text = d.text) : c = d := by
  have hlists : c.kind.toList ++ ':' :: c.name.toList = d.kind.toList ++ ':' :: d.name.toList := by
    have htext := congrArg String.toList h
    simpa [text] using htext
  obtain ⟨hkind, hname⟩ := Text.cut_unique hc hd hlists
  exact congrArg₂ mk (String.toList_inj.mp hkind) (String.toList_inj.mp hname)

/-- A list of such constructs is read back from their texts. -/
theorem eq_of_map_text {cs ds : List Construct} (hcs : ∀ c ∈ cs, ':' ∉ c.kind.toList)
    (hds : ∀ d ∈ ds, ':' ∉ d.kind.toList) (h : cs.map text = ds.map text) : cs = ds := by
  induction cs generalizing ds with
  | nil => exact (List.map_eq_nil_iff.mp h.symm).symm
  | cons c cs ih =>
    cases ds with
    | nil => cases h
    | cons d ds =>
      obtain ⟨hfirst, hrest⟩ := List.cons.inj h
      rw [eq_of_text (hcs c List.mem_cons_self) (hds d List.mem_cons_self) hfirst,
        ih (fun e he => hcs e (List.mem_cons_of_mem _ he))
          (fun e he => hds e (List.mem_cons_of_mem _ he)) hrest]

end Construct

namespace Tag

-- =========================================================== what is shown

/-- An attribute as an entry shows it: not at all while its field is off. -/
def visible {α : Type} (on : Bool) (value : Option α) : Option α :=
  if on then value else none

/-- Two tags that agree on everything that an entry can show of them. -/
structure SameShown (shown : FieldSet) (a b : Tag) : Prop where
  name : a.name = b.name
  kind : a.kind = b.kind
  fileScope : a.fileScope = b.fileScope
  scope : a.scope = b.scope
  inheritance : shown.inheritance = true → a.inheritance = b.inheritance
  access : shown.access = true → a.access = b.access
  implementation : shown.implementation = true → a.implementation = b.implementation
  typeRef : shown.typeRef = true → a.typeRef = b.typeRef

theorem eq_of_toList {α : Type} {x y : Option α} (h : x.toList = y.toList) : x = y := by
  have hheads := congrArg List.head? h
  rwa [Option.head?_toList, Option.head?_toList] at hheads

theorem visible_congr {α : Type} {on : Bool} {x y : Option α} (h : on = true → x = y) :
    visible on x = visible on y := by
  unfold visible
  split_ifs with hon
  · exact h hon
  · rfl

theorem eq_of_visible {α : Type} {on : Bool} {x y : Option α} (h : visible on x = visible on y)
    (hon : on = true) : x = y := by
  rwa [visible, visible, if_pos hon, if_pos hon] at h

-- ======================================================== entries in parts

/-- What stands in front of the segments of an entry. -/
def head (tag : Tag) : List Char :=
  (if tag.fileScope then localMark else "").toList ++ tag.kind.toList ++ ':' :: tag.name.toList

/-- The mark of file scope among the segments, which says nothing more. -/
def fileMark (tag : Tag) (shown : FieldSet) (inHeader : Bool) : Option String :=
  if shown.fileScope && tag.fileScope && !inHeader then some "" else none

/-- An attribute under a label, as a construct of that kind. -/
def labelled (label : String) (value : Option String) : List Construct :=
  value.toList.map (Construct.mk label)

/-- The segments of an entry behind that of the scope, as constructs. -/
def details (tag : Tag) (shown : FieldSet) (inHeader : Bool) : List Construct :=
  labelled "inherits" (visible shown.inheritance tag.inheritance)
  ++ labelled "file" (tag.fileMark shown inHeader)
  ++ labelled "access" (visible shown.access tag.access)
  ++ labelled "imp" (visible shown.implementation tag.implementation)
  ++ (visible shown.typeRef tag.typeRef).toList

variable (tag : Tag) (shown : FieldSet) (inHeader : Bool)

theorem segments_eq_map_text :
    tag.segments shown inHeader
      = (tag.scope.toList ++ tag.details shown inHeader).map Construct.text := by
  have hlabel : ∀ (on : Bool) (label : String) (value : Option String),
      (labelled label (visible on value)).map Construct.text
        = if on then value.toList.map (label ++ ":" ++ ·) else [] := by
    intro on label value
    rw [labelled, List.map_map]
    cases on <;> rfl
  have hmark : (labelled "file" (tag.fileMark shown inHeader)).map Construct.text
      = if shown.fileScope && tag.fileScope && !inHeader then ["file:"] else [] := by
    unfold fileMark
    split_ifs <;> rfl
  have htype : (visible shown.typeRef tag.typeRef).toList.map Construct.text
      = if shown.typeRef then tag.typeRef.toList.map Construct.text else [] := by
    cases shown.typeRef <;> rfl
  unfold segments details
  simp only [List.map_append, hlabel, hmark, htype, List.append_assoc]
  rfl

theorem toList_entry :
    (tag.entry shown inHeader).toList
      = '<' :: '#'
        :: (tag.head ++ (tag.segments shown inHeader).flatMap bracketed ++ ['#', '>']) := by
  simp [entry, head]

-- ============================================================ entries in the text

/-- A head and the segments behind it are read back from the text of both. -/
theorem segments_unique {front front' : List Char} {segments segments' : List String}
    (hfront : '[' ∉ front) (hfront' : '[' ∉ front') (hs : ∀ s ∈ segments, ']' ∉ s.toList)
    (hs' : ∀ s ∈ segments', ']' ∉ s.toList)
    (heq : front ++ segments.flatMap bracketed = front' ++ segments'.flatMap bracketed) :
    front = front' ∧ segments = segments' := by
  induction segments generalizing front front' segments' with
  | nil =>
    cases segments' with
    | nil =>
      rw [List.flatMap_nil, List.append_nil, List.append_nil] at heq
      exact ⟨heq, rfl⟩
    | cons s' rest' =>
      rw [List.flatMap_nil, List.append_nil] at heq
      exact absurd (heq ▸ by simp [bracketed]) hfront
  | cons s rest ih =>
    cases segments' with
    | nil =>
      rw [List.flatMap_nil, List.append_nil] at heq
      exact absurd (heq ▸ by simp [bracketed]) hfront'
    | cons s' rest' =>
      have hcut : (front ++ [' ']) ++ '[' :: (s.toList ++ ']' :: rest.flatMap bracketed)
          = (front' ++ [' ']) ++ '[' :: (s'.toList ++ ']' :: rest'.flatMap bracketed) := by
        simpa [bracketed] using heq
      obtain ⟨hheads, hbehind⟩ :=
        Text.cut_unique (by simpa using hfront) (by simpa using hfront') hcut
      obtain ⟨hsegment, htail⟩ := Text.cut_unique (hs s List.mem_cons_self)
        (hs' s' List.mem_cons_self) hbehind
      have hnil : '[' ∉ ([] : List Char) := List.not_mem_nil
      obtain ⟨-, hrest⟩ := ih hnil hnil (fun t ht => hs t (List.mem_cons_of_mem _ ht))
        (fun t ht => hs' t (List.mem_cons_of_mem _ ht)) htail
      rw [List.append_cancel_right hheads, String.toList_inj.mp hsegment, hrest]
      exact ⟨rfl, rfl⟩

/-- A head is read back if the kind has no colon and does not open like the mark of
file scope. -/
theorem head_unique {a b : Tag} (ha : ':' ∉ a.kind.toList) (hb : ':' ∉ b.kind.toList)
    (hma : ¬ localMark.toList <+: a.kind.toList) (hmb : ¬ localMark.toList <+: b.kind.toList)
    (heq : a.head = b.head) : a.name = b.name ∧ a.kind = b.kind ∧ a.fileScope = b.fileScope := by
  have hcolon : ∀ own : Bool, ':' ∉ (if own then localMark else "").toList := by decide
  obtain ⟨hmarked, hname⟩ := Text.cut_unique
    (List.not_mem_append (hcolon a.fileScope) ha) (List.not_mem_append (hcolon b.fileScope) hb) heq
  refine ⟨String.toList_inj.mp hname, ?_⟩
  cases hfa : a.fileScope <;> cases hfb : b.fileScope <;> rw [hfa, hfb] at hmarked
  · exact ⟨String.toList_inj.mp hmarked, rfl⟩
  · exact absurd ⟨_, hmarked.symm⟩ hma
  · exact absurd ⟨_, hmarked⟩ hmb
  · exact ⟨String.toList_inj.mp (List.append_cancel_left hmarked), rfl⟩

-- ======================================================== details by their kinds

theorem filter_labelled (q : String → Bool) (label : String) (value : Option String) :
    (labelled label value).filter (fun c => q c.kind)
      = if q label then labelled label value else [] := by
  cases value with
  | none => simp [labelled]
  | some text => cases h : q label <;> simp [labelled, h]

theorem eq_of_labelled {label : String} {x y : Option String}
    (h : labelled label x = labelled label y) : x = y := by
  cases x <;> cases y <;> simp_all [labelled]

/-- The details of some kinds, one attribute after another. -/
theorem filter_details (q : String → Bool) :
    (tag.details shown inHeader).filter (fun c => q c.kind)
      = (if q "inherits" then labelled "inherits" (visible shown.inheritance tag.inheritance)
          else [])
        ++ (if q "file" then labelled "file" (tag.fileMark shown inHeader) else [])
        ++ (if q "access" then labelled "access" (visible shown.access tag.access) else [])
        ++ (if q "imp" then labelled "imp" (visible shown.implementation tag.implementation)
          else [])
        ++ (visible shown.typeRef tag.typeRef).toList.filter (fun c => q c.kind) := by
  simp only [details, List.filter_append, filter_labelled q]

/-- The kinds of the details that have a label of their own. -/
def labels : List String := ["inherits", "file", "access", "imp"]

/-- Each attribute is found among the details by its kind, if the kind of the type
reference is none of the labels. -/
theorem details_found (h : ∀ c ∈ visible shown.typeRef tag.typeRef, c.kind ∉ labels) :
    let found := fun q : String → Bool =>
      (tag.details shown inHeader).filter (fun c => q c.kind)
    found (· == "inherits") = labelled "inherits" (visible shown.inheritance tag.inheritance)
      ∧ found (· == "access") = labelled "access" (visible shown.access tag.access)
      ∧ found (· == "imp") = labelled "imp" (visible shown.implementation tag.implementation)
      ∧ found (· ∉ labels) = (visible shown.typeRef tag.typeRef).toList := by
  intro found
  have hlabel : ∀ label ∈ labels,
      (visible shown.typeRef tag.typeRef).toList.filter (fun c => c.kind == label) = [] := by
    intro label hmem
    rw [List.filter_eq_nil_iff]
    intro c hc hkind
    exact h c (Option.mem_toList.mp hc) (beq_iff_eq.mp hkind ▸ hmem)
  have htype : (visible shown.typeRef tag.typeRef).toList.filter (fun c => c.kind ∉ labels)
      = (visible shown.typeRef tag.typeRef).toList := by
    rw [List.filter_eq_self]
    intro c hc
    exact decide_eq_true (h c (Option.mem_toList.mp hc))
  refine ⟨?_, ?_, ?_, ?_⟩
  · refine (tag.filter_details shown inHeader (· == "inherits")).trans ?_
    simp [hlabel "inherits" (by decide)]
  · refine (tag.filter_details shown inHeader (· == "access")).trans ?_
    simp [hlabel "access" (by decide)]
  · refine (tag.filter_details shown inHeader (· == "imp")).trans ?_
    simp [hlabel "imp" (by decide)]
  · refine (tag.filter_details shown inHeader (· ∉ labels)).trans ?_
    rw [htype]
    simp [labels]

theorem details_unique {a b : Tag} {shown : FieldSet} {inHeader : Bool}
    (ha : ∀ c ∈ visible shown.typeRef a.typeRef, c.kind ∉ labels)
    (hb : ∀ c ∈ visible shown.typeRef b.typeRef, c.kind ∉ labels)
    (heq : a.details shown inHeader = b.details shown inHeader) :
    visible shown.inheritance a.inheritance = visible shown.inheritance b.inheritance
      ∧ visible shown.access a.access = visible shown.access b.access
      ∧ visible shown.implementation a.implementation
        = visible shown.implementation b.implementation
      ∧ visible shown.typeRef a.typeRef = visible shown.typeRef b.typeRef := by
  obtain ⟨hinherits, haccess, himp, htype⟩ := details_found a shown inHeader ha
  obtain ⟨hinherits', haccess', himp', htype'⟩ := details_found b shown inHeader hb
  rw [heq] at hinherits haccess himp htype
  refine ⟨?_, ?_, ?_, ?_⟩
  · exact eq_of_labelled (hinherits.symm.trans hinherits')
  · exact eq_of_labelled (haccess.symm.trans haccess')
  · exact eq_of_labelled (himp.symm.trans himp')
  · exact eq_of_toList (htype.symm.trans htype')

-- ================================================================ readability

/-- All texts that an entry shows. -/
def shownTexts (tag : Tag) (shown : FieldSet) : List String :=
  [tag.name, tag.kind]
  ++ tag.scope.toList.flatMap (fun c => [c.kind, c.name])
  ++ (visible shown.inheritance tag.inheritance).toList
  ++ (visible shown.access tag.access).toList
  ++ (visible shown.implementation tag.implementation).toList
  ++ (visible shown.typeRef tag.typeRef).toList.flatMap (fun c => [c.kind, c.name])

/-- Tags whose entries keep their parts apart. -/
structure Legible (shown : FieldSet) (tag : Tag) : Prop where
  bracketless : ∀ text ∈ tag.shownTexts shown, '[' ∉ text.toList ∧ ']' ∉ text.toList
  kind_colonless : ':' ∉ tag.kind.toList
  kind_unmarked : ¬ localMark.toList <+: tag.kind.toList
  scope_colonless : ∀ c ∈ tag.scope, ':' ∉ c.kind.toList
  type_colonless : ∀ c ∈ visible shown.typeRef tag.typeRef, ':' ∉ c.kind.toList
  type_unlabelled : ∀ c ∈ visible shown.typeRef tag.typeRef, c.kind ∉ labels

/-- A detail is a shown text under a label, or the mark of file scope, or the type
reference. -/
theorem mem_details {tag : Tag} {shown : FieldSet} {inHeader : Bool} {c : Construct}
    (hc : c ∈ tag.details shown inHeader) :
    (c.kind ∈ labels ∧ (c.name = "" ∨ c.name ∈ tag.shownTexts shown))
      ∨ c ∈ visible shown.typeRef tag.typeRef := by
  simp only [details, labelled, List.mem_append, List.mem_map, Option.mem_toList] at hc
  obtain (((⟨text, htext, rfl⟩ | ⟨text, htext, rfl⟩) | ⟨text, htext, rfl⟩) | ⟨text, htext, rfl⟩)
    | htype := hc
  · exact .inl ⟨by simp [labels], .inr (by simp [shownTexts, htext])⟩
  · refine .inl ⟨by simp [labels], .inl ?_⟩
    unfold fileMark at htext
    split_ifs at htext
    exact (Option.some.inj htext).symm
  · exact .inl ⟨by simp [labels], .inr (by simp [shownTexts, htext])⟩
  · exact .inl ⟨by simp [labels], .inr (by simp [shownTexts, htext])⟩
  · exact .inr htype

namespace Legible

variable {tag : Tag} {shown : FieldSet}

theorem head (h : tag.Legible shown) : '[' ∉ tag.head := by
  have hmark : ∀ own : Bool, '[' ∉ (if own then localMark else "").toList := by decide
  have hname := (h.bracketless tag.name (by simp [shownTexts])).1
  have hkind := (h.bracketless tag.kind (by simp [shownTexts])).1
  unfold Tag.head
  simp [hmark, hname, hkind]

theorem construct (h : tag.Legible shown) {inHeader : Bool} {c : Construct}
    (hc : c ∈ tag.scope.toList ++ tag.details shown inHeader) :
    ':' ∉ c.kind.toList ∧ ']' ∉ c.text.toList := by
  have hlabels : ∀ label ∈ labels, ':' ∉ label.toList ∧ ']' ∉ label.toList := by decide
  have htext : ']' ∉ c.kind.toList → ']' ∉ c.name.toList → ']' ∉ c.text.toList := by
    intro hkind hname
    simp [Construct.text, hkind, hname]
  rcases List.mem_append.mp hc with hscope | hdetail
  · have hshown : c.kind ∈ tag.shownTexts shown ∧ c.name ∈ tag.shownTexts shown := by
      rw [Option.mem_toList] at hscope
      simp [shownTexts, hscope]
    exact ⟨h.scope_colonless c (Option.mem_toList.mp hscope),
      htext (h.bracketless _ hshown.1).2 (h.bracketless _ hshown.2).2⟩
  · obtain ⟨hkind, hname⟩ | htype := mem_details hdetail
    · refine ⟨(hlabels _ hkind).1, htext (hlabels _ hkind).2 ?_⟩
      rcases hname with hname | hname
      · simp [hname]
      · exact (h.bracketless _ hname).2
    · have hshown : c.kind ∈ tag.shownTexts shown ∧ c.name ∈ tag.shownTexts shown := by
        rw [Option.mem_def] at htype
        simp [shownTexts, htype]
      exact ⟨h.type_colonless c htype,
        htext (h.bracketless _ hshown.1).2 (h.bracketless _ hshown.2).2⟩

theorem segment (h : tag.Legible shown) (inHeader : Bool) :
    ∀ s ∈ tag.segments shown inHeader, ']' ∉ s.toList := by
  intro s hs
  rw [segments_eq_map_text] at hs
  obtain ⟨c, hc, rfl⟩ := List.mem_map.mp hs
  exact (h.construct hc).2

end Legible

/-- The entry of a tag shows its name, its kind, whether it is local to its file, its
scope, and each other attribute whose field is on, and nothing else: tags that
agree on these have one entry, whatever else they hold. And it shows them so
that they can be told: two legible tags with the same entry agree on all of
these, if both have a scope or neither has one. -/
theorem entry_shows_exactly_the_visible (shown : FieldSet) (inHeader : Bool) (a b : Tag) :
    (SameShown shown a b → a.entry shown inHeader = b.entry shown inHeader)
      ∧ (a.Legible shown → b.Legible shown → a.scope.isSome = b.scope.isSome →
          a.entry shown inHeader = b.entry shown inHeader → SameShown shown a b) := by
  constructor
  · intro h
    have hhead : a.head = b.head := by
      rw [head, head, h.name, h.kind, h.fileScope]
    have hdetails : a.details shown inHeader = b.details shown inHeader := by
      rw [details, details, fileMark, fileMark, h.fileScope, visible_congr h.inheritance,
        visible_congr h.access, visible_congr h.implementation, visible_congr h.typeRef]
    rw [← String.toList_inj, toList_entry, toList_entry, segments_eq_map_text,
      segments_eq_map_text, hhead, h.scope, hdetails]
  · intro ha hb hscopes heq
    have hbody : a.head ++ (a.segments shown inHeader).flatMap bracketed
        = b.head ++ (b.segments shown inHeader).flatMap bracketed := by
      rw [← String.toList_inj, toList_entry, toList_entry] at heq
      exact List.append_cancel_right (List.cons.inj (List.cons.inj heq).2).2
    obtain ⟨hhead, hsegments⟩ := segments_unique ha.head hb.head (ha.segment inHeader)
      (hb.segment inHeader) hbody
    obtain ⟨hname, hkind, hfile⟩ := head_unique ha.kind_colonless hb.kind_colonless
      ha.kind_unmarked hb.kind_unmarked hhead
    rw [segments_eq_map_text, segments_eq_map_text] at hsegments
    have hconstructs := Construct.eq_of_map_text (fun _ hc => (ha.construct hc).1)
      (fun _ hc => (hb.construct hc).1) hsegments
    have hlength : a.scope.toList.length = b.scope.toList.length := by
      rw [Option.length_toList, Option.length_toList, hscopes]
    obtain ⟨hscope, hdetails⟩ := List.append_inj hconstructs hlength
    obtain ⟨hinheritance, haccess, himplementation, htype⟩ :=
      details_unique ha.type_unlabelled hb.type_unlabelled hdetails
    exact {
      name := hname
      kind := hkind
      fileScope := hfile
      scope := eq_of_toList hscope
      inheritance := eq_of_visible hinheritance
      access := eq_of_visible haccess
      implementation := eq_of_visible himplementation
      typeRef := eq_of_visible htype }

/-- With access off, a method keeps its entry when its access becomes something that
could not even be shown, and it changes its entry with its type. -/
theorem entry_shows_exactly_the_visible_method :
    let shown : FieldSet := { FieldSet.full with access := false }
    let draw : Tag :=
      { name := "draw", kind := "method", fileScope := true, scope := some ⟨"class", "Shape"⟩
        inheritance := some "Drawable", access := some "public"
        implementation := some "pure virtual", typeRef := some ⟨"typename", "void"⟩ }
    let hidden : Tag := { draw with access := some "[private]" }
    let typed : Tag := { draw with typeRef := some ⟨"typename", "int"⟩ }
    draw.entry shown false = hidden.entry shown false
      ∧ draw.entry shown false ≠ typed.entry shown false := by
  intro shown draw hidden typed
  have hdraw : draw.Legible shown :=
    ⟨by decide, by decide, by decide, by decide, by decide, by decide⟩
  have htyped : typed.Legible shown :=
    ⟨by decide, by decide, by decide, by decide, by decide, by decide⟩
  refine ⟨(entry_shows_exactly_the_visible shown false draw hidden).1 ?_, ?_⟩
  · exact ⟨rfl, rfl, rfl, rfl, fun _ => rfl, nofun, fun _ => rfl, fun _ => rfl⟩
  · intro heq
    have hsame := (entry_shows_exactly_the_visible shown false draw typed).2 hdraw htyped rfl heq
    exact absurd (hsame.typeRef rfl) (by decide)

end Tag

end ScanTrace
