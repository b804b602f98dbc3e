/-
Configuration documents mean the same in whatever order their entries are
written. Three orders meet in a document: that of its entries, of which only
the last of each name counts; that of the names, in which the settings are
made; and that of the settings themselves, of which the last one to mean a
switch decides about it. What comes of them can be said without any of the
three being run through (`Config.Reflects`): a switch is on if the greatest
of the names that mean it stands last with `true`. In the same way the error
of a document that names something unknown is about the least of its unknown
names, those of its levels before those of its fields.

The proof goes along the settings: settled entries are ordered, so the last
entry that means a switch is the one with the greatest name that does, and
the first that means none is the one with the least (Switching.lean); and
which names there are, each with its last value, is what `mem_settle` says.
-/
import ScanTrace.Proofs.Config.Shape
import ScanTrace.Proofs.Config.Switching
import ScanTrace.Proofs.Json.RoundTrip

namespace ScanTrace

open Document (precedes settle lastOf?)

-- ====================================================== the meaning of entries

namespace Document

/-- The names that occur in a map. -/
def keys (entries : List (String × Bool)) : List String := entries.map Prod.fst

/-- A name that occurs, has a property, and comes before every other such name. -/
def Least (entries : List (String × Bool)) (p : String → Prop) (name : String) : Prop :=
  name ∈ keys entries ∧ p name
    ∧ ∀ other ∈ keys entries, p other → other = name ∨ precedes name other = true

/-- A name that occurs, has a property, and comes after every other such name. -/
def Greatest (entries : List (String × Bool)) (p : String → Prop) (name : String) : Prop :=
  name ∈ keys entries ∧ p name
    ∧ ∀ other ∈ keys entries, p other → other = name ∨ precedes other name = true

/-- Whether every name that occurs means something. -/
def AllKnown {ι : Type} (named? : String → Option ι) (entries : List (String × Bool)) : Prop :=
  ∀ name ∈ keys entries, named? name ≠ none

/-- Whether entries switch something on: of the names that mean it, the greatest stands
last with `true`. -/
def SwitchesOn {ι : Type} (named? : String → Option ι) (entries : List (String × Bool)) (i : ι) :
    Prop :=
  ∃ name, Greatest entries (fun key => named? key = some i) name
    ∧ lastOf? entries name = some true

theorem mem_keys_iff (entries : List (String × Bool)) (name : String) :
    name ∈ keys entries ↔ ∃ on, (name, on) ∈ settle entries := by
  rw [keys, ← lastOf?_isSome, Option.isSome_iff_exists]
  exact exists_congr fun on => (mem_settle entries (name, on)).symm

/-- Settled entries and the names of the entries range over the same. -/
theorem forall_settle_iff {entries : List (String × Bool)} {e : String × Bool}
    (he : e ∈ settle entries) (p q : String → Prop) :
    (∀ a ∈ settle entries, p a.1 → a = e ∨ q a.1) ↔
      ∀ other ∈ keys entries, p other → other = e.1 ∨ q other := by
  constructor
  · intro h other hother hp
    obtain ⟨on, hmem⟩ := (mem_keys_iff entries other).mp hother
    exact (h (other, on) hmem hp).imp_left (congrArg Prod.fst)
  · intro h a ha hp
    refine (h a.1 ((mem_keys_iff entries a.1).mpr ⟨a.2, ha⟩) hp).imp_left fun hname => ?_
    have hvalue : some a.2 = some e.2 :=
      ((mem_settle entries a).mp ha).symm.trans (hname ▸ (mem_settle entries e).mp he)
    exact Prod.ext hname (Option.some.inj hvalue)

/-- To choose among the settled entries is to choose among the names, and to take the last
value of the name. -/
theorem settle_choice_iff (entries : List (String × Bool)) (e : String × Bool)
    (p q : String → Prop) :
    (e ∈ settle entries ∧ p e.1 ∧ ∀ a ∈ settle entries, p a.1 → a = e ∨ q a.1) ↔
      (e.1 ∈ keys entries ∧ p e.1 ∧ ∀ other ∈ keys entries, p other → other = e.1 ∨ q other)
        ∧ lastOf? entries e.1 = some e.2 := by
  constructor
  · rintro ⟨he, hp, hchosen⟩
    have hkey : e.1 ∈ keys entries := (mem_keys_iff entries e.1).mpr ⟨e.2, he⟩
    exact ⟨⟨hkey, hp, (forall_settle_iff he p q).mp hchosen⟩, (mem_settle entries e).mp he⟩
  · rintro ⟨⟨-, hp, hchosen⟩, hlast⟩
    have he : e ∈ settle entries := (mem_settle entries e).mpr hlast
    exact ⟨he, hp, (forall_settle_iff he p q).mpr hchosen⟩

end Document

namespace Panel

variable {ι ρ : Type} [DecidableEq ι] (P : Panel ι ρ)

/-- The last settled entry that means a switch has the greatest name that does. -/
theorem find?_settle_reverse (entries : List (String × Bool)) (i : ι) (e : String × Bool) :
    (settle entries).reverse.find? (P.Means i) = some e ↔
      Document.Greatest entries (fun key => P.named? key = some i) e.1
        ∧ lastOf? entries e.1 = some e.2 := by
  rw [(Document.sorted_settle entries).find?_reverse_eq_some_iff]
  simp only [Means, beq_iff_eq]
  exact Document.settle_choice_iff entries e (fun key => P.named? key = some i)
    fun key => precedes key e.1 = true

/-- The first settled entry that means no switch has the least name that means none. -/
theorem find?_settle (entries : List (String × Bool)) (e : String × Bool) :
    (settle entries).find? P.Unknown = some e ↔
      Document.Least entries (fun key => P.named? key = none) e.1
        ∧ lastOf? entries e.1 = some e.2 := by
  rw [(Document.sorted_settle entries).find?_eq_some_iff]
  simp only [Unknown, Option.isNone_iff_eq_none]
  exact Document.settle_choice_iff entries e (fun key => P.named? key = none)
    fun key => precedes e.1 key = true

/-- If all names are known, a panel that is off at first is on where the entries switch
it on. -/
theorem setEach_settle_known {entries : List (String × Bool)}
    (h : Document.AllKnown P.named? entries) {c : Config} (hoff : ∀ i, P.isOn c i = false) :
    ∃ c', Config.setEach P.set c (settle entries) = { state := c' } ∧ P.others c' = P.others c
      ∧ ∀ i, P.isOn c' i = true ↔ Document.SwitchesOn P.named? entries i := by
  have hknown : ∀ e ∈ settle entries, P.Unknown e = false := by
    intro e he
    have hname := h e.1 ((Document.mem_keys_iff ..).mpr ⟨e.2, he⟩)
    simpa [Unknown, Option.isNone_eq_false_iff, Option.isSome_iff_ne_none] using hname
  obtain ⟨c', hrun, hothers, hon⟩ := P.setEach_known hknown c
  refine ⟨c', hrun, hothers, ?_⟩
  intro i
  rw [hon, hoff]
  constructor
  · intro hi
    cases hfind : (settle entries).reverse.find? (P.Means i) with
    | none => simp [hfind] at hi
    | some e =>
      rw [hfind] at hi
      obtain ⟨hgreatest, hlast⟩ := (P.find?_settle_reverse entries i e).mp hfind
      have hvalue : e.2 = true := hi
      exact ⟨e.1, hgreatest, hvalue ▸ hlast⟩
  · rintro ⟨name, hgreatest, hlast⟩
    rw [(P.find?_settle_reverse entries i (name, true)).mpr ⟨hgreatest, hlast⟩]
    rfl

/-- If some name is unknown, the least such name is refused, with one notice. -/
theorem setEach_settle_unknown {entries : List (String × Bool)}
    (h : ¬ Document.AllKnown P.named? entries) (c : Config) :
    ∃ name, Document.Least entries (fun key => P.named? key = none) name
      ∧ (Config.setEach P.set c (settle entries)).rejected = some (P.refused name)
      ∧ (Config.setEach P.set c (settle entries)).notices = [P.notice (P.refused name)] := by
  obtain ⟨name, hname, hunknown⟩ : ∃ name ∈ Document.keys entries, P.named? name = none := by
    simpa [Document.AllKnown] using h
  obtain ⟨on, hmem⟩ := (Document.mem_keys_iff entries name).mp hname
  obtain ⟨e, he⟩ : ∃ e, (settle entries).find? P.Unknown = some e :=
    Option.isSome_iff_exists.mp
      (List.find?_isSome.mpr ⟨(name, on), hmem, Option.isNone_iff_eq_none.mpr hunknown⟩)
  obtain ⟨hrejected, hnotices⟩ := P.setEach_unknown he c
  exact ⟨e.1, ((P.find?_settle entries e).mp he).1, hrejected, hnotices⟩

end Panel

-- =================================================================== documents

/-- What a document comes to: the switches that its entries switch on, and no others,
and its list of extensions, or the default one if it has none. -/
structure Config.Reflects (c : Config) (d : Document) : Prop where
  levels : ∀ l, c.levels.has l = true ↔ Document.SwitchesOn Level.named? d.levels l
  fields : ∀ f, c.fields.shows f = true ↔ Document.SwitchesOn Field.named? d.fields f
  headers : c.headers = d.headers.getD defaultHeaders

/-- What is said of a document that names something unknown: what it is refused for, and
the notice of it. Its levels are looked at first. -/
inductive Document.Blames (d : Document) : Rejection → Notice → Prop
  | level {name : String} (h : Document.Least d.levels (fun key => Level.named? key = none) name) :
    Blames d (.unknownLevel name) (.levelRejected (.unknownLevel name))
  | field {name : String} (hlevels : Document.AllKnown Level.named? d.levels)
    (h : Document.Least d.fields (fun key => Field.named? key = none) name) :
    Blames d (.unknownField name) (.fieldRejected (.unknownField name))

namespace Config

theorem setAll_of_rejected {c : Config} {levels fields : List (String × Bool)} {why : Rejection}
    (h : (setEach setLevel c levels).rejected = some why) :
    setAll c levels fields = setEach setLevel c levels := by
  have hsome : (setEach setLevel c levels).rejected.isSome = true := h ▸ rfl
  simp only [setAll, hsome, if_true]

theorem setAll_of_state {c c' : Config} {levels fields : List (String × Bool)}
    (h : setEach setLevel c levels = { state := c' }) :
    setAll c levels fields = setEach setField c' fields := by
  simp only [setAll, h]
  rfl

variable {d : Document}

theorem ofDocument_of_rejected {why : Rejection} {notice : Notice}
    (hrejected : (setAll {} (settle d.levels) (settle d.fields)).rejected = some why)
    (hnotices : (setAll {} (settle d.levels) (settle d.fields)).notices = [notice]) :
    ofDocument d = { result := .error (.rejected why), notices := [notice] } := by
  simp only [ofDocument, hrejected, hnotices]

/-- The levels of a document, if all of them are known, put into the empty
configuration. -/
theorem setEach_levels (h : Document.AllKnown Level.named? d.levels) : ∃ c : Config,
    setEach setLevel {} (settle d.levels) = { state := c }
      ∧ c.fields = {} ∧ c.headers = defaultHeaders
      ∧ ∀ l, c.levels.has l = true ↔ Document.SwitchesOn Level.named? d.levels l := by
  have hoff : ∀ l, levelPanel.isOn {} l = false := by
    intro l
    cases l <;> decide
  obtain ⟨c, hrun, hothers, hon⟩ := levelPanel.setEach_settle_known h hoff
  obtain ⟨hfields, hheaders⟩ := Prod.ext_iff.mp hothers
  exact ⟨c, hrun, hfields, hheaders, hon⟩

theorem ofDocument_known (hlevels : Document.AllKnown Level.named? d.levels)
    (hfields : Document.AllKnown Field.named? d.fields) :
    ∃ c : Config, c.Reflects d ∧ ofDocument d
      = { result := .ok c, notices := [.configLoaded c.levels.mask c.headers.length] } := by
  obtain ⟨c₁, hrun₁, hnone, hheaders₁, hon₁⟩ := setEach_levels hlevels
  have hoff : ∀ f, fieldPanel.isOn c₁ f = false := by
    intro f
    show c₁.fields.shows f = false
    rw [hnone]
    cases f <;> rfl
  obtain ⟨c₂, hrun₂, hothers, hon₂⟩ := fieldPanel.setEach_settle_known hfields hoff
  obtain ⟨hlevels₂, hheaders₂⟩ := Prod.ext_iff.mp hothers
  have hkept : c₂.levels = c₁.levels := hlevels₂
  have hheaders : c₂.headers = defaultHeaders := hheaders₂.trans hheaders₁
  have hall : setAll {} (settle d.levels) (settle d.fields) = { state := c₂ } :=
    (setAll_of_state hrun₁).trans hrun₂
  refine ⟨{ c₂ with headers := d.headers.getD c₂.headers }, ⟨?_, hon₂, ?_⟩, ?_⟩
  · intro l
    rw [hkept]
    exact hon₁ l
  · rw [hheaders]
  · simp only [ofDocument, hall, List.nil_append]

theorem ofDocument_unknown (h : ¬ (Document.AllKnown Level.named? d.levels
    ∧ Document.AllKnown Field.named? d.fields)) :
    ∃ why notice, d.Blames why notice
      ∧ ofDocument d = { result := .error (.rejected why), notices := [notice] } := by
  by_cases hlevels : Document.AllKnown Level.named? d.levels
  · have hfields : ¬ Document.AllKnown Field.named? d.fields := fun hf => h ⟨hlevels, hf⟩
    obtain ⟨c, hrun, -⟩ := setEach_levels hlevels
    obtain ⟨name, hleast, hrejected, hnotices⟩ := fieldPanel.setEach_settle_unknown hfields c
    have hall : setAll {} (settle d.levels) (settle d.fields)
        = setEach fieldPanel.set c (settle d.fields) := setAll_of_state hrun
    rw [← hall] at hrejected hnotices
    exact ⟨_, _, .field hlevels hleast, ofDocument_of_rejected hrejected hnotices⟩
  · obtain ⟨name, hleast, hrejected, hnotices⟩ := levelPanel.setEach_settle_unknown hlevels {}
    have hall : setAll {} (settle d.levels) (settle d.fields)
        = setEach levelPanel.set {} (settle d.levels) := setAll_of_rejected hrejected
    rw [← hall] at hrejected hnotices
    exact ⟨_, _, .level hleast, ofDocument_of_rejected hrejected hnotices⟩

/-- Documents in which the same names stand last with the same values come to the same. -/
theorem ofDocument_congr {d d' : Document}
    (hlevels : ∀ name, lastOf? d.levels name = lastOf? d'.levels name)
    (hfields : ∀ name, lastOf? d.fields name = lastOf? d'.fields name)
    (hheaders : d.headers = d'.headers) : ofDocument d = ofDocument d' := by
  unfold ofDocument
  rw [Document.settle_congr hlevels, Document.settle_congr hfields, hheaders]

end Config

/-- A document that a text is. -/
def Document.InText (d : Document) (text : String) : Prop :=
  ∃ v, Json.read? text = some v ∧ d.WrittenAs v

theorem Document.inText_iff (d : Document) (text : String) :
    d.InText text ↔ Document.read? text = some d := by
  have hbind : Document.read? text = some d ↔
      ∃ v, Json.read? text = some v ∧ Document.ofJson? v = some d := Option.bind_eq_some_iff
  rw [hbind]
  exact exists_congr fun v => and_congr_right fun _ => (Document.ofJson?_eq_some_iff v d).symm

theorem Document.InText.ofText {d : Document} {text : String} (h : d.InText text) :
    Config.ofText text = Config.ofDocument d := by
  rw [Config.ofText, (d.inText_iff text).mp h]

/-- What a configuration text comes to. A document in which every name is known gives the
configuration that reflects it, with one debug notice; any other document is refused
for its least unknown name, with one warning; and a text that is no document is
refused without a notice. None of this depends on the order of the entries: it is the
same for every document in which the same names stand last with the same values,
and so for every document in which entries of different names changed places. -/
theorem documents_mean_the_same_in_any_order (text : String) :
    let loaded := Config.ofText text
    (∀ d : Document, d.InText text →
      (Document.AllKnown Level.named? d.levels ∧ Document.AllKnown Field.named? d.fields →
        ∃ c : Config, c.Reflects d ∧ loaded.result = .ok c
          ∧ loaded.notices = [.configLoaded c.levels.mask c.headers.length]
          ∧ loaded.notices.map Notice.severity = [.debug])
      ∧ (¬ (Document.AllKnown Level.named? d.levels ∧ Document.AllKnown Field.named? d.fields) →
        ∃ why notice, d.Blames why notice ∧ loaded.result = .error (.rejected why)
          ∧ loaded.notices = [notice] ∧ loaded.notices.map Notice.severity = [.warn])
      ∧ ∀ (text' : String) (d' : Document), d'.InText text' → d'.headers = d.headers →
        ((∀ name, lastOf? d.levels name = lastOf? d'.levels name) →
          (∀ name, lastOf? d.fields name = lastOf? d'.fields name) →
          Config.ofText text' = loaded)
        ∧ (d.levels.Perm d'.levels → (Document.keys d.levels).Nodup →
          d.fields.Perm d'.fields → (Document.keys d.fields).Nodup →
          Config.ofText text' = loaded))
    ∧ ((∀ d : Document, ¬ d.InText text) →
      loaded.result = .error .malformed ∧ loaded.notices = []) := by
  intro loaded
  refine ⟨?_, ?_⟩
  · intro d hd
    have hloaded : loaded = Config.ofDocument d := hd.ofText
    rw [hloaded]
    refine ⟨?_, ?_, ?_⟩
    · rintro ⟨hlevels, hfields⟩
      obtain ⟨c, hreflects, hc⟩ := Config.ofDocument_known hlevels hfields
      rw [hc]
      exact ⟨c, hreflects, rfl, rfl, rfl⟩
    · intro hunknown
      obtain ⟨why, notice, hblames, hrefused⟩ := Config.ofDocument_unknown hunknown
      rw [hrefused]
      refine ⟨why, notice, hblames, rfl, rfl, ?_⟩
      cases hblames <;> rfl
    · intro text' d' hd' hheaders
      rw [hd'.ofText]
      refine ⟨fun hlevels hfields => ?_, fun hlevels hlonce hfields hfonce => ?_⟩
      · exact (Config.ofDocument_congr hlevels hfields hheaders.symm).symm
      · exact (Config.ofDocument_congr (Document.lastOf?_of_perm hlevels hlonce)
          (Document.lastOf?_of_perm hfields hfonce) hheaders.symm).symm
  · intro hnone
    have hread : Document.read? text = none := by
      rw [Option.eq_none_iff_forall_ne_some]
      exact fun d hd => hnone d ((d.inText_iff text).mpr hd)
    have hmalformed : loaded = { result := .error .malformed } := by
      show Config.ofText text = _
      rw [Config.ofText, hread]
    rw [hmalformed]
    exact ⟨rfl, rfl⟩

/-- Two names for one level and two for one field, each time the greater one first: it is
the greater one that counts, as it does in the same entries turned around. -/
theorem documents_mean_the_same_with_aliases :
    let v : Json.Value := .object
      [(some "fields", .ofSwitches [("file", true), ("File_Scope", false)]),
       (some "debug", .ofSwitches [("parse", true), (" PARSE", false)])]
    let w : Json.Value := .array
      [.ofSwitches [(" PARSE", false), ("parse", true)],
       .ofSwitches [("File_Scope", false), ("file", true)], .null]
    (∃ c, (Config.ofText v.text).result = .ok c ∧ c.levels.has .parse = true
      ∧ c.fields.shows .fileScope = true) ∧ Config.ofText w.text = Config.ofText v.text := by
  intro v w
  let d : Document := ⟨[("parse", true), (" PARSE", false)],
    [("file", true), ("File_Scope", false)], none⟩
  let d' : Document := ⟨[(" PARSE", false), ("parse", true)],
    [("File_Scope", false), ("file", true)], none⟩
  have hv : d.InText v.text := ⟨v, Json.read?_text (by unfold Json.Value.Numberless; decide),
    .members .given .given (.leftOut rfl) (List.Perm.swap ..)⟩
  have hw : d'.InText w.text := ⟨w, Json.read?_text (by unfold Json.Value.Numberless; decide),
    .values⟩
  have hlevels : Document.AllKnown Level.named? d.levels := by
    unfold Document.AllKnown
    decide
  have hfields : Document.AllKnown Field.named? d.fields := by
    unfold Document.AllKnown
    decide
  obtain ⟨hknown, -, hsame⟩ := (documents_mean_the_same_in_any_order v.text).1 d hv
  refine ⟨?_, ?_⟩
  · obtain ⟨c, hreflects, hresult, -⟩ := hknown ⟨hlevels, hfields⟩
    refine ⟨c, hresult, (hreflects.levels .parse).mpr ?_, (hreflects.fields .fileScope).mpr ?_⟩
    · exact ⟨"parse", ⟨by decide, by decide, by decide⟩, by decide⟩
    · exact ⟨"file", ⟨by decide, by decide, by decide⟩, by decide⟩
  · exact (hsame w.text d' hw rfl).2 (List.Perm.swap ..) (by decide) (List.Perm.swap ..)
      (by decide)

end ScanTrace
