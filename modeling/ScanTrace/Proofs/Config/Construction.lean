/-
Tracers made by name, against documents that say the same. A scripting host
makes a tracer from two lists of names; a document could have said `true` of
each of these names instead. The two go through the names in different
orders, the one as they are listed, the other in the order of their UTF-8
bytes and each only once, and so they may blame different names if several
are unknown. Everything else is the same, since what is switched on by names
that are all known depends on the set of them only (`Config.NamedOn.unique`).

The bridge is that the settled entries of such a document are again names
that are all said to be on (`Document.settle_of_saysOn`): loading the
document is configuring with its names in another order.
-/
import ScanTrace.Embedding.Api
import ScanTrace.Proofs.Config.RoundTrip

namespace ScanTrace

open Json (Value)
open Document (settle lastOf?)

-- ============================================================ names in a list

/-- The first name of a list that means nothing. -/
def FirstUnknown {ι : Type} (named? : String → Option ι) (names : List String) (name : String) :
    Prop :=
  ∃ before after, names = before ++ name :: after ∧ named? name = none
    ∧ ∀ other ∈ before, named? other ≠ none

theorem exists_firstUnknown {ι : Type} {named? : String → Option ι} {names : List String}
    (h : ∃ name ∈ names, named? name = none) : ∃ first, FirstUnknown named? names first := by
  induction names with
  | nil => simp at h
  | cons a names ih =>
    by_cases ha : named? a = none
    · exact ⟨a, [], names, rfl, ha, List.forall_mem_nil _⟩
    · obtain ⟨name, hmem, hname⟩ := h
      have hlater : name ∈ names := by
        rcases List.mem_cons.mp hmem with rfl | hmem
        · exact absurd hname ha
        · exact hmem
      obtain ⟨first, before, after, rfl, hfirst, hbefore⟩ := ih ⟨name, hlater, hname⟩
      exact ⟨first, a :: before, after, rfl, hfirst, List.forall_mem_cons.mpr ⟨ha, hbefore⟩⟩

namespace Panel

variable {ι ρ : Type} [DecidableEq ι] (P : Panel ι ρ)

/-- Names that are all known switch on what they mean, and nothing else. -/
theorem setEach_on_known {names : List String} (h : ∀ name ∈ names, P.named? name ≠ none)
    (c : Config) : ∃ c', Config.setEach P.set c (names.map (·, true)) = { state := c' }
      ∧ P.others c' = P.others c
      ∧ ∀ i, P.isOn c' i = true ↔
        (∃ name ∈ names, P.named? name = some i) ∨ P.isOn c i = true := by
  induction names generalizing c with
  | nil => exact ⟨c, rfl, rfl, fun i => by simp⟩
  | cons name names ih =>
    obtain ⟨hfirst, hrest⟩ := List.forall_mem_cons.mp h
    obtain ⟨i, hi⟩ := Option.ne_none_iff_exists'.mp hfirst
    obtain ⟨c₁, hset, hothers, hon⟩ := P.set_known hi c true
    obtain ⟨c₂, hrun, hothers', hon'⟩ := ih hrest c₁
    refine ⟨c₂, ?_, hothers'.trans hothers, fun j => ?_⟩
    · simp [Config.setEach, hset, hrun]
    · rw [hon', hon]
      by_cases hj : j = i
      · simp [hi, hj]
      · simp [hi, hj, Ne.symm hj]

theorem setEach_on_unknown {names : List String} {first : String}
    (h : FirstUnknown P.named? names first) (c : Config) :
    (Config.setEach P.set c (names.map (·, true))).rejected = some (P.refused first)
      ∧ (Config.setEach P.set c (names.map (·, true))).notices = [P.notice (P.refused first)] := by
  obtain ⟨before, after, rfl, hfirst, hbefore⟩ := h
  refine P.setEach_unknown (e := (first, true)) ?_ c
  rw [List.find?_eq_some_iff_append]
  refine ⟨by simp [Unknown, hfirst], before.map (·, true), after.map (·, true), by simp, ?_⟩
  intro e he
  obtain ⟨name, hname, rfl⟩ := List.mem_map.mp he
  simpa [Unknown, Option.isSome_iff_ne_none] using hbefore name hname

end Panel

-- =============================================================== configuring

/-- The configuration in which just the named levels and fields are on. -/
structure Config.NamedOn (c : Config) (levels fields : List String) : Prop where
  defined : c.levels.Defined
  levels : ∀ l, c.levels.has l = true ↔ ∃ name ∈ levels, Level.named? name = some l
  fields : ∀ f, c.fields.shows f = true ↔ ∃ name ∈ fields, Field.named? name = some f
  headers : c.headers = defaultHeaders

/-- The order of the names, and how often they are repeated, is of no account. -/
theorem Config.NamedOn.unique {c c' : Config} {levels levels' fields fields' : List String}
    (h : c.NamedOn levels fields) (h' : c'.NamedOn levels' fields')
    (hlevels : ∀ name, name ∈ levels ↔ name ∈ levels')
    (hfields : ∀ name, name ∈ fields ↔ name ∈ fields') : c = c' := by
  have hlevelsEq : c.levels = c'.levels := by
    refine h.defined.ext h'.defined fun l => ?_
    rw [Bool.eq_iff_iff, h.levels, h'.levels]
    exact exists_congr fun name => and_congr_left fun _ => hlevels name
  have hfieldsEq : c.fields = c'.fields := by
    refine FieldSet.ext_shows fun f => ?_
    rw [Bool.eq_iff_iff, h.fields, h'.fields]
    exact exists_congr fun name => and_congr_left fun _ => hfields name
  have hheaders : c.headers = c'.headers := h.headers.trans h'.headers.symm
  cases c
  cases c'
  simp_all

namespace Embedding

open Config

variable {levels fields : List String}

/-- Known levels, put into the empty configuration. -/
theorem setEach_levels_on (h : ∀ name ∈ levels, Level.named? name ≠ none) : ∃ c : Config,
    setEach setLevel {} (levels.map (·, true)) = { state := c } ∧ c.fields = {}
      ∧ c.headers = defaultHeaders
      ∧ ∀ l, c.levels.has l = true ↔ ∃ name ∈ levels, Level.named? name = some l := by
  obtain ⟨c, hrun, hothers, hon⟩ := levelPanel.setEach_on_known h {}
  obtain ⟨hfields, hheaders⟩ := Prod.ext_iff.mp hothers
  refine ⟨c, hrun, hfields, hheaders, fun l => (hon l).trans (or_iff_left ?_)⟩
  cases l <;> decide

theorem configure_known (hlevels : ∀ name ∈ levels, Level.named? name ≠ none)
    (hfields : ∀ name ∈ fields, Field.named? name ≠ none) :
    ∃ c : Config, configure levels fields = { state := c } ∧ c.NamedOn levels fields := by
  obtain ⟨c₁, hrun₁, hnone, hheaders₁, hon₁⟩ := setEach_levels_on hlevels
  obtain ⟨c₂, hrun₂, hothers, hon₂⟩ := fieldPanel.setEach_on_known hfields c₁
  obtain ⟨hkept, hheaders₂⟩ := Prod.ext_iff.mp hothers
  have hkept : c₂.levels = c₁.levels := hkept
  have hall : configure levels fields = { state := c₂ } := (setAll_of_state hrun₁).trans hrun₂
  have hdefined : (configure levels fields).state.levels.Defined := defined_setAll ..
  rw [hall] at hdefined
  refine ⟨c₂, hall, hdefined, fun l => ?_, fun f => (hon₂ f).trans (or_iff_left ?_),
    hheaders₂.trans hheaders₁⟩
  · rw [hkept]
    exact hon₁ l
  · show ¬ c₁.fields.shows f = true
    rw [hnone]
    cases f <;> decide

theorem configure_unknown_level {first : String} (h : FirstUnknown Level.named? levels first) :
    (configure levels fields).rejected = some (.unknownLevel first)
      ∧ (configure levels fields).notices = [.levelRejected (.unknownLevel first)] := by
  obtain ⟨hrejected, hnotices⟩ := levelPanel.setEach_on_unknown h {}
  have hall : configure levels fields = setEach setLevel {} (levels.map (·, true)) :=
    setAll_of_rejected hrejected
  rw [hall]
  exact ⟨hrejected, hnotices⟩

theorem configure_unknown_field (hlevels : ∀ name ∈ levels, Level.named? name ≠ none)
    {first : String} (h : FirstUnknown Field.named? fields first) :
    (configure levels fields).rejected = some (.unknownField first)
      ∧ (configure levels fields).notices = [.fieldRejected (.unknownField first)] := by
  obtain ⟨c, hrun, -⟩ := setEach_levels_on hlevels
  have hall : configure levels fields = setEach setField c (fields.map (·, true)) :=
    setAll_of_state hrun
  rw [hall]
  exact fieldPanel.setEach_on_unknown h c

end Embedding

-- ================================================================= documents

namespace Document

/-- Entries that say `true` of the given names, and nothing of any other. -/
def SaysOn (entries : List (String × Bool)) (names : List String) : Prop :=
  ∀ e, e ∈ entries ↔ e.1 ∈ names ∧ e.2 = true

/-- A document that switches on the given levels and fields, and says nothing else. -/
structure TurnsOn (d : Document) (levels fields : List String) : Prop where
  levels : SaysOn d.levels levels
  fields : SaysOn d.fields fields
  headers : d.headers = none

/-- Such a document, which says `true` once of each name. -/
def turningOn (levels fields : List String) : Document where
  levels := levels.dedup.map (·, true)
  fields := fields.dedup.map (·, true)
  headers := none

/-- The document as a JSON value. -/
def turningOnJson (levels fields : List String) : Value :=
  .ofEntries
    [("debug", .ofSwitches (turningOn levels fields).levels),
     ("fields", .ofSwitches (turningOn levels fields).fields)]

theorem saysOn_dedup (names : List String) : SaysOn (names.dedup.map (·, true)) names := by
  rintro ⟨name, on⟩
  rw [List.mem_map]
  constructor
  · rintro ⟨other, hother, heq⟩
    obtain ⟨rfl, rfl⟩ := Prod.mk.inj heq
    exact ⟨List.mem_dedup.mp hother, rfl⟩
  · rintro ⟨hname, rfl⟩
    exact ⟨name, List.mem_dedup.mpr hname, rfl⟩

theorem turningOn_turnsOn (levels fields : List String) :
    (turningOn levels fields).TurnsOn levels fields :=
  ⟨saysOn_dedup levels, saysOn_dedup fields, rfl⟩

theorem turningOn_inText (levels fields : List String) :
    (turningOn levels fields).InText (turningOnJson levels fields).text := by
  refine ⟨turningOnJson levels fields, Json.read?_text (Value.numberless_ofEntries ?_), ?_⟩
  · simp only [List.forall_mem_cons]
    exact ⟨Value.numberless_ofSwitches _, Value.numberless_ofSwitches _, List.forall_mem_nil _⟩
  · exact .members .given .given (.leftOut rfl) (List.Perm.refl _)

theorem mem_of_lastOf? {entries : List (String × Bool)} {name : String} {on : Bool}
    (h : lastOf? entries name = some on) : (name, on) ∈ entries := by
  obtain ⟨before, after, heq, -⟩ := List.lookup_eq_some_iff.mp h
  exact List.mem_reverse.mp (heq ▸ List.mem_append_right _ (List.mem_cons_self ..))

variable {entries : List (String × Bool)} {names : List String}

theorem mem_keys_of_saysOn (h : SaysOn entries names) (name : String) :
    name ∈ keys entries ↔ name ∈ names := by
  rw [keys, List.mem_map]
  constructor
  · rintro ⟨e, he, rfl⟩
    exact ((h e).mp he).1
  · intro hname
    exact ⟨(name, true), (h _).mpr ⟨hname, rfl⟩, rfl⟩

/-- Settled, they are names all of which are said to be on, in another order. -/
theorem settle_of_saysOn (h : SaysOn entries names) :
    ∃ ordered : List String, settle entries = ordered.map (·, true)
      ∧ ∀ name, name ∈ ordered ↔ name ∈ names := by
  refine ⟨(settle entries).map Prod.fst, ?_, fun name => ?_⟩
  · have hvalue : ∀ e ∈ settle entries, (e.1, true) = e := by
      intro e he
      have hmem : e ∈ entries := mem_of_lastOf? ((mem_settle entries e).mp he)
      exact Prod.ext rfl ((h e).mp hmem).2.symm
    rw [List.map_map]
    exact ((List.map_congr_left hvalue).trans (List.map_id _)).symm
  · rw [← mem_keys_of_saysOn h, mem_keys_iff, List.mem_map]
    constructor
    · rintro ⟨e, he, rfl⟩
      exact ⟨e.2, he⟩
    · rintro ⟨on, he⟩
      exact ⟨(name, on), he, rfl⟩

variable {d : Document} {levels fields : List String}

theorem allKnown_iff {ι : Type} {named? : String → Option ι} (h : SaysOn entries names) :
    AllKnown named? entries ↔ ∀ name ∈ names, named? name ≠ none :=
  forall_congr' fun name => imp_congr_left (mem_keys_of_saysOn h name)

/-- If all its names are known, the document is loaded as the configuration in which the
named are on. -/
theorem TurnsOn.ofDocument_known (h : d.TurnsOn levels fields)
    (hlevels : ∀ name ∈ levels, Level.named? name ≠ none)
    (hfields : ∀ name ∈ fields, Field.named? name ≠ none) :
    ∃ c : Config, c.NamedOn levels fields ∧ Config.ofDocument d
      = { result := .ok c, notices := [.configLoaded c.levels.mask c.headers.length] } := by
  obtain ⟨levels', hsettled, hsame⟩ := settle_of_saysOn h.levels
  obtain ⟨fields', hsettled', hsame'⟩ := settle_of_saysOn h.fields
  have hknown : ∀ name ∈ levels', Level.named? name ≠ none := fun name hname =>
    hlevels name ((hsame name).mp hname)
  have hknown' : ∀ name ∈ fields', Field.named? name ≠ none := fun name hname =>
    hfields name ((hsame' name).mp hname)
  obtain ⟨c, hconfigure, hnamed⟩ := Embedding.configure_known hknown hknown'
  refine ⟨c, ?_, ?_⟩
  · refine ⟨hnamed.defined, fun l => (hnamed.levels l).trans ?_,
      fun f => (hnamed.fields f).trans ?_, hnamed.headers⟩
    · exact exists_congr fun name => and_congr_left fun _ => hsame name
    · exact exists_congr fun name => and_congr_left fun _ => hsame' name
  · have hall : Config.setAll {} (settle d.levels) (settle d.fields) = { state := c } := by
      rw [hsettled, hsettled']
      exact hconfigure
    simp only [Config.ofDocument, hall, h.headers, Option.getD_none, List.nil_append]

/-- If a level is unknown, the document is refused for the least unknown level. -/
theorem TurnsOn.ofDocument_unknown_level (h : d.TurnsOn levels fields)
    (hunknown : ∃ name ∈ levels, Level.named? name = none) :
    ∃ least, Least d.levels (fun name => Level.named? name = none) least
      ∧ Config.ofDocument d = { result := .error (.rejected (.unknownLevel least))
                                notices := [.levelRejected (.unknownLevel least)] } := by
  have hnot : ¬ AllKnown Level.named? d.levels := by
    rw [allKnown_iff h.levels]
    push Not
    exact hunknown
  obtain ⟨why, notice, hblames, hloaded⟩ := Config.ofDocument_unknown fun hall => hnot hall.1
  cases hblames with
  | level hleast => exact ⟨_, hleast, hloaded⟩
  | field hlevels _ => exact absurd hlevels hnot

/-- If only fields are unknown, it is refused for the least of them. -/
theorem TurnsOn.ofDocument_unknown_field (h : d.TurnsOn levels fields)
    (hlevels : ∀ name ∈ levels, Level.named? name ≠ none)
    (hunknown : ∃ name ∈ fields, Field.named? name = none) :
    ∃ least, Least d.fields (fun name => Field.named? name = none) least
      ∧ Config.ofDocument d = { result := .error (.rejected (.unknownField least))
                                notices := [.fieldRejected (.unknownField least)] } := by
  have hall : AllKnown Level.named? d.levels := (allKnown_iff h.levels).mpr hlevels
  have hnot : ¬ AllKnown Field.named? d.fields := by
    rw [allKnown_iff h.fields]
    push Not
    exact hunknown
  obtain ⟨why, notice, hblames, hloaded⟩ := Config.ofDocument_unknown fun both => hnot both.2
  cases hblames with
  | level hleast => exact absurd hleast.2.1 (hall _ hleast.1)
  | field _ hleast => exact ⟨_, hleast, hloaded⟩

end Document

-- ============================================================ the two compared

namespace Embedding

variable {levels fields : List String} {arguments : Arguments} {st : Session}

theorem toTexts_texts (names : List String) :
    (Value.list (names.map .text)).toTexts = .ok names := by
  unfold Value.toTexts
  induction names with
  | nil => rfl
  | cons name names ih =>
    simp only [List.map_cons, List.mapM_cons, ih, Value.toText]
    rfl

/-- A tracer can be given any lists of names. -/
theorem tracerNames_texts (levels fields : List String) :
    tracerNames { positional := [.list (levels.map .text), .list (fields.map .text)] }
      = .ok (levels, fields) := by
  show (do
    let levels ← (Value.list (levels.map .text)).toTexts
    let fields ← (Value.list (fields.map .text)).toTexts
    return (levels, fields)) = _
  rw [toTexts_texts, toTexts_texts]
  rfl

theorem newTracer_of_state (hsink : st.sink.isSome = true)
    (hnames : tracerNames arguments = .ok (levels, fields)) {c : Config}
    (h : configure levels fields = { state := c }) :
    newTracer arguments st
      = (.done, { st with tracers := st.tracers ++ [.ofConfig .main c] }) := by
  have hconsole : st.console = .ok .main := if_pos hsink
  simp only [newTracer, hnames, makeTracer, hconsole, h, Session.noteAll_nil]

theorem newTracer_of_rejected (hsink : st.sink.isSome = true)
    (hnames : tracerNames arguments = .ok (levels, fields)) {why : Rejection} {notice : Notice}
    (h : (configure levels fields).rejected = some why
      ∧ (configure levels fields).notices = [notice]) :
    newTracer arguments st = (.failed (.rejected why), st.note notice) := by
  have hconsole : st.console = .ok .main := if_pos hsink
  simp only [newTracer, hnames, makeTracer, hconsole, h.1, h.2]
  rfl

/-- A call that made a tracer of a configuration, to which the same names lead in any other
order and with any repetitions. -/
structure MadeOf (made : Reply × Session) (st : Session) (levels fields : List String)
    (c : Config) : Prop where
  made : made = (.done, { st with tracers := st.tracers ++ [.ofConfig .main c] })
  reordered : ∀ levels' fields', (∀ name, name ∈ levels ↔ name ∈ levels') →
    (∀ name, name ∈ fields ↔ name ∈ fields') → configure levels' fields' = { state := c }

/-- A call that makes no tracer and a document that is not loaded, each with its own
reason and with one warning about it. -/
structure BothRefuse (made : Reply × Session) (st : Session) (loaded : Loaded)
    (notice : Rejection → Notice) (why why' : Rejection) : Prop where
  made : made = (.failed (.rejected why), st.note (notice why))
  loaded : loaded = { result := .error (.rejected why'), notices := [notice why'] }
  warns : ∀ r, (notice r).severity = .warn

/-- Where both refuse, neither succeeds. -/
theorem BothRefuse.neither {made : Reply × Session} {loaded : Loaded}
    {notice : Rejection → Notice} {why why' : Rejection}
    (h : BothRefuse made st loaded notice why why') :
    (made.1 = .done ↔ ∃ c, loaded.result = .ok c)
      ∧ ∀ c, loaded.result = .ok c → MadeOf made st levels fields c := by
  rw [h.made, h.loaded]
  exact ⟨⟨nofun, nofun⟩, nofun⟩

theorem madeOf_of_known (hsink : st.sink.isSome = true)
    (hnames : tracerNames arguments = .ok (levels, fields)) {c : Config}
    (h : c.NamedOn levels fields) (hlevels : ∀ name ∈ levels, Level.named? name ≠ none)
    (hfields : ∀ name ∈ fields, Field.named? name ≠ none) :
    MadeOf (newTracer arguments st) st levels fields c := by
  have hreordered : ∀ levels' fields', (∀ name, name ∈ levels ↔ name ∈ levels') →
      (∀ name, name ∈ fields ↔ name ∈ fields') → configure levels' fields' = { state := c } := by
    intro levels' fields' hsame hsame'
    have hknown : ∀ name ∈ levels', Level.named? name ≠ none := fun name hname =>
      hlevels name ((hsame name).mpr hname)
    have hknown' : ∀ name ∈ fields', Field.named? name ≠ none := fun name hname =>
      hfields name ((hsame' name).mpr hname)
    obtain ⟨c', hstate, h'⟩ := configure_known hknown hknown'
    rw [hstate, h.unique h' hsame hsame']
  have hself := hreordered levels fields (fun _ => Iff.rfl) fun _ => Iff.rfl
  exact ⟨newTracer_of_state hsink hnames hself, hreordered⟩

theorem bothRefuse_unknown_level (hsink : st.sink.isSome = true)
    (hnames : tracerNames arguments = .ok (levels, fields)) {d : Document}
    (h : d.TurnsOn levels fields) (hunknown : ∃ name ∈ levels, Level.named? name = none) :
    ∃ first least, FirstUnknown Level.named? levels first
      ∧ Document.Least d.levels (fun name => Level.named? name = none) least
      ∧ BothRefuse (newTracer arguments st) st (Config.ofDocument d) .levelRejected
          (.unknownLevel first) (.unknownLevel least) := by
  obtain ⟨first, hfirst⟩ := exists_firstUnknown hunknown
  obtain ⟨least, hleast, hrefused⟩ := h.ofDocument_unknown_level hunknown
  have hmade := newTracer_of_rejected hsink hnames (configure_unknown_level hfirst)
  exact ⟨first, least, hfirst, hleast, hmade, hrefused, fun _ => rfl⟩

theorem bothRefuse_unknown_field (hsink : st.sink.isSome = true)
    (hnames : tracerNames arguments = .ok (levels, fields)) {d : Document}
    (h : d.TurnsOn levels fields) (hlevels : ∀ name ∈ levels, Level.named? name ≠ none)
    (hunknown : ∃ name ∈ fields, Field.named? name = none) :
    ∃ first least, FirstUnknown Field.named? fields first
      ∧ Document.Least d.fields (fun name => Field.named? name = none) least
      ∧ BothRefuse (newTracer arguments st) st (Config.ofDocument d) .fieldRejected
          (.unknownField first) (.unknownField least) := by
  obtain ⟨first, hfirst⟩ := exists_firstUnknown hunknown
  obtain ⟨least, hleast, hrefused⟩ := h.ofDocument_unknown_field hlevels hunknown
  have hmade := newTracer_of_rejected hsink hnames (configure_unknown_field hlevels hfirst)
  exact ⟨first, least, hfirst, hleast, hmade, hrefused, fun _ => rfl⟩

/-- To make a tracer with lists of names, which may be any, is to load the document that says
`true` of each of them. Either both succeed, or neither does. If they succeed, the tracer
is made of the very configuration that was loaded, and the same would come of the same
names in any other order and with any repetitions. If a level is unknown, both are refused
for an unknown level, and if only fields are, for an unknown field: the call for the first
one in its list, the document for the least one in the order of UTF-8 bytes, each with one
warning. -/
theorem made_tracer_agrees_with_document (levels fields : List String)
    (hsink : st.sink.isSome = true) :
    ((∃ arguments, tracerNames arguments = .ok (levels, fields))
      ∧ (Document.turningOn levels fields).InText (Document.turningOnJson levels fields).text
      ∧ (Document.turningOn levels fields).TurnsOn levels fields)
    ∧ ∀ (arguments : Arguments) (text : String) (d : Document),
      tracerNames arguments = .ok (levels, fields) → d.InText text → d.TurnsOn levels fields →
      let made := newTracer arguments st
      let loaded := Config.ofText text
      ((made.1 = .done ↔ ∃ c, loaded.result = .ok c)
        ∧ ∀ c, loaded.result = .ok c → MadeOf made st levels fields c)
      ∧ ((∃ name ∈ levels, Level.named? name = none) → ∃ first least,
          FirstUnknown Level.named? levels first
          ∧ Document.Least d.levels (fun name => Level.named? name = none) least
          ∧ BothRefuse made st loaded .levelRejected (.unknownLevel first) (.unknownLevel least))
      ∧ ((∀ name ∈ levels, Level.named? name ≠ none) →
          (∃ name ∈ fields, Field.named? name = none) → ∃ first least,
          FirstUnknown Field.named? fields first
          ∧ Document.Least d.fields (fun name => Field.named? name = none) least
          ∧ BothRefuse made st loaded .fieldRejected (.unknownField first)
              (.unknownField least)) := by
  refine ⟨⟨⟨_, tracerNames_texts levels fields⟩, Document.turningOn_inText ..,
    Document.turningOn_turnsOn ..⟩, ?_⟩
  intro arguments text d hnames hd h made loaded
  have hloaded : loaded = Config.ofDocument d := hd.ofText
  rw [hloaded]
  refine ⟨?_, bothRefuse_unknown_level hsink hnames h, bothRefuse_unknown_field hsink hnames h⟩
  by_cases hlevels : ∀ name ∈ levels, Level.named? name ≠ none
  · by_cases hfields : ∀ name ∈ fields, Field.named? name ≠ none
    · obtain ⟨c, hnamed, hc⟩ := h.ofDocument_known hlevels hfields
      have hmade : MadeOf made st levels fields c :=
        madeOf_of_known hsink hnames hnamed hlevels hfields
      rw [hc]
      refine ⟨⟨fun _ => ⟨c, rfl⟩, fun _ => congrArg Prod.fst hmade.made⟩, fun c' hc' => ?_⟩
      exact Except.ok.inj hc' ▸ hmade
    · push Not at hfields
      obtain ⟨_, _, -, -, hboth⟩ := bothRefuse_unknown_field hsink hnames h hlevels hfields
      exact hboth.neither
  · push Not at hlevels
    obtain ⟨_, _, -, -, hboth⟩ := bothRefuse_unknown_level hsink hnames h hlevels
    exact hboth.neither

/-- A level named in two ways and a field named twice, in a list and by keyword: the tracer is
made of what the document of these names is loaded as. -/
theorem made_tracer_agrees_with_document_aliases :
    let st : Session := { env := ⟨"/tmp", none, true, none⟩, sink := some (.memory none) }
    let arguments : Arguments :=
      { positional := [.list [.text "raw", .text "parse", .text " PARSE"]]
        named := [("fields", .tuple [.text "imp", .text "imp"])] }
    let levels := ["raw", "parse", " PARSE"]
    let fields := ["imp", "imp"]
    st.sink.isSome = true ∧ tracerNames arguments = .ok (levels, fields)
    ∧ ∃ c, (Config.ofText (Document.turningOnJson levels fields).text).result = .ok c
      ∧ newTracer arguments st
        = (.done, { st with tracers := st.tracers ++ [.ofConfig .main c] }) := by
  intro st arguments levels fields
  have hsink : st.sink.isSome = true := rfl
  have hnames : tracerNames arguments = .ok (levels, fields) := by decide
  obtain ⟨⟨-, htext, hturns⟩, hagree⟩ := made_tracer_agrees_with_document levels fields hsink
  obtain ⟨⟨hboth, hmade⟩, -⟩ := hagree arguments _ _ hnames htext hturns
  obtain ⟨c, hc⟩ := hboth.mp (by decide)
  exact ⟨hsink, hnames, c, hc, (hmade c hc).made⟩

end Embedding

end ScanTrace
