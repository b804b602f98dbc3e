/-
Configurations that were written are read back. The document of a
configuration names every level and every field by its own name and says of
each whether it is on, and it lists the extensions (`Config.toJson`). Nothing
of the configuration is left out of it: a registry has no bits but those of
its levels (`LevelSet.Defined.ext`), and a set of fields is its switches.

What is read from a document is known for documents in general
(`Config.ofDocument_known`): a switch is on if the greatest of the names that
mean it stands last with `true`. In the document of a configuration just one
name means a switch, and it occurs once, so the switches are read as they
were. That the bits of the configuration that is read belong to levels is an
invariant of the settings that are made one after another
(`Config.setEach_invariant`).
-/
import ScanTrace.Tracer
import ScanTrace.Proofs.Config.Documents
import ScanTrace.Proofs.Deeds

namespace ScanTrace

open Json (Value)
open Document (lastOf?)

-- ================================================================= switches

/-- A switch for each member of a list, under its name. -/
def switches {ι : Type} (all : List ι) (name : ι → String) (on : ι → Bool) :
    List (String × Bool) :=
  all.map fun i => (name i, on i)

section Switches

variable {ι : Type} {all : List ι} {name : ι → String} {named? : String → Option ι}

theorem keys_switches (on : ι → Bool) : Document.keys (switches all name on) = all.map name := by
  unfold Document.keys switches
  rw [List.map_map]
  rfl

theorem nodup_keys_switches (hnamed : ∀ i, named? (name i) = some i) (honce : all.Nodup)
    (on : ι → Bool) : (Document.keys (switches all name on)).Nodup := by
  rw [keys_switches]
  refine honce.map ?_
  intro i j hij
  have hsome : some i = some j := by rw [← hnamed i, ← hnamed j, hij]
  exact Option.some.inj hsome

theorem allKnown_switches (hnamed : ∀ i, named? (name i) = some i) (on : ι → Bool) :
    Document.AllKnown named? (switches all name on) := by
  intro key hkey
  rw [keys_switches] at hkey
  obtain ⟨i, -, rfl⟩ := List.mem_map.mp hkey
  rw [hnamed i]
  exact nofun

/-- Under one name each, switches are on that are written to be on. -/
theorem switchesOn_switches_iff (hnamed : ∀ i, named? (name i) = some i) (hall : ∀ i, i ∈ all)
    (honce : all.Nodup) (on : ι → Bool) (i : ι) :
    Document.SwitchesOn named? (switches all name on) i ↔ on i = true := by
  have hmem : ∀ j, (name j, on j) ∈ switches all name on := fun j =>
    List.mem_map.mpr ⟨j, hall j, rfl⟩
  have hlast : ∀ j, lastOf? (switches all name on) (name j) = some (on j) := fun j =>
    (Document.lastOf?_of_nodup (nodup_keys_switches hnamed honce on) _ _).mpr (hmem j)
  -- the one name of the switch
  have hsingle : ∀ key ∈ Document.keys (switches all name on), named? key = some i →
      key = name i := by
    intro key hkey hmeans
    rw [keys_switches] at hkey
    obtain ⟨j, -, rfl⟩ := List.mem_map.mp hkey
    rw [hnamed j] at hmeans
    exact congrArg name (Option.some.inj hmeans)
  constructor
  · rintro ⟨key, ⟨hkey, hmeans, -⟩, htrue⟩
    rw [hsingle key hkey hmeans, hlast i] at htrue
    exact Option.some.inj htrue
  · intro hon
    have hkey : name i ∈ Document.keys (switches all name on) :=
      List.mem_map.mpr ⟨_, hmem i, rfl⟩
    exact ⟨name i, ⟨hkey, hnamed i, fun key hkey hmeans => .inl (hsingle key hkey hmeans)⟩,
      hon ▸ hlast i⟩

end Switches

theorem Json.Value.numberless_ofSwitches (entries : List (String × Bool)) :
    (Value.ofSwitches entries).Numberless := by
  have hentries : Value.ofSwitches entries
      = .ofEntries (entries.map fun e => (e.1, .bool e.2)) := by
    rw [Value.ofSwitches, Value.ofEntries, List.map_map]
    rfl
  rw [hentries]
  refine Value.numberless_ofEntries ?_
  intro e he
  obtain ⟨a, -, rfl⟩ := List.mem_map.mp he
  exact Value.numberless_bool a.2

theorem Level.nodup_all : all.Nodup := by decide

theorem Field.nodup_all : all.Nodup := by decide

theorem Level.named?_name (l : Level) : named? l.name = some l := by cases l <;> decide

theorem Field.named?_name (f : Field) : named? f.name = some f := by cases f <;> decide

namespace Config

-- ================================================================ documents

/-- Everything a configuration says, as a document. -/
def document (c : Config) : Document where
  levels := switches Level.all Level.name c.levels.has
  fields := switches Field.all Field.name c.fields.shows
  headers := some c.headers

/-- The document of a configuration as a JSON value. -/
def toJson (c : Config) : Value :=
  .ofEntries
    [("debug", .ofSwitches c.document.levels),
     ("fields", .ofSwitches c.document.fields),
     ("header_extensions", .ofExtensions c.document.headers)]

theorem writtenAs_toJson (c : Config) : c.document.WrittenAs c.toJson :=
  .members .given .given .given (List.Perm.refl _)

theorem numberless_toJson (c : Config) : c.toJson.Numberless := by
  have hheaders : (Value.ofExtensions (some c.headers)).Numberless := by
    refine Value.numberless_array ?_
    intro v hv
    obtain ⟨s, -, rfl⟩ := List.mem_map.mp hv
    exact Value.numberless_ofString s
  refine Value.numberless_ofEntries ?_
  simp only [List.forall_mem_cons]
  exact ⟨Value.numberless_ofSwitches _, Value.numberless_ofSwitches _, hheaders,
    List.forall_mem_nil _⟩

-- ================================================================ loading

/-- What every setting keeps is kept by settings one after another. -/
theorem setEach_invariant {I : Config → Prop} {set : Config → String → Bool → Outcome Config}
    (hset : ∀ c name on, I c → I (set c name on).state) {c : Config} (h : I c)
    (entries : List (String × Bool)) : I (setEach set c entries).state := by
  induction entries generalizing c with
  | nil => exact h
  | cons e rest ih =>
    have hfirst := hset c e.1 e.2 h
    rw [setEach]
    dsimp only
    split_ifs
    · exact hfirst
    · exact ih hfirst

theorem setAll_invariant {I : Config → Prop}
    (hlevel : ∀ c name on, I c → I (setLevel c name on).state)
    (hfield : ∀ c name on, I c → I (setField c name on).state) {c : Config} (h : I c)
    (levels fields : List (String × Bool)) : I (setAll c levels fields).state := by
  have hfirst := setEach_invariant hlevel h levels
  unfold setAll
  dsimp only
  split_ifs
  · exact hfirst
  · exact setEach_invariant hfield hfirst fields

/-- Settings made on the empty configuration set no bits but those of levels. -/
theorem defined_setAll (levels fields : List (String × Bool)) :
    (setAll {} levels fields).state.levels.Defined := by
  have hlevel : ∀ (c : Config) name on, c.levels.Defined →
      (setLevel c name on).state.levels.Defined := by
    intro c name on hc
    unfold setLevel
    cases hset : c.levels.setNamed name on with
    | ok levels => exact hc.apply (.setNamed name on) hset
    | error why => exact hc
  have hfield : ∀ (c : Config) name on, c.levels.Defined →
      (setField c name on).state.levels.Defined := by
    intro c name on hc
    unfold setField
    cases c.fields.setNamed name on with
    | ok fields => exact hc
    | error why => exact hc
  exact setAll_invariant hlevel hfield (c := {}) LevelSet.defined_empty levels fields

/-- A configuration that is loaded has no bits but those of its levels. -/
theorem defined_ofDocument {d : Document} {c : Config} (h : (ofDocument d).result = .ok c) :
    c.levels.Defined := by
  have hall := defined_setAll (Document.settle d.levels) (Document.settle d.fields)
  unfold ofDocument at h
  dsimp only at h
  split at h
  · cases h
  · cases h
    exact hall

/-- The document of a configuration is loaded as the configuration. -/
theorem ofDocument_document {c : Config} (h : c.levels.Defined) :
    ofDocument c.document
      = { result := .ok c, notices := [.configLoaded c.levels.mask c.headers.length] } := by
  obtain ⟨c', hreflects, hloaded⟩ := ofDocument_known (d := c.document)
    (allKnown_switches Level.named?_name _) (allKnown_switches Field.named?_name _)
  have hlevels : c'.levels = c.levels := by
    refine (defined_ofDocument (congrArg Loaded.result hloaded)).ext h ?_
    intro l
    rw [Bool.eq_iff_iff, hreflects.levels]
    exact switchesOn_switches_iff Level.named?_name Level.mem_all Level.nodup_all _ l
  have hfields : c'.fields = c.fields := by
    refine FieldSet.ext_shows ?_
    intro f
    rw [Bool.eq_iff_iff, hreflects.fields]
    exact switchesOn_switches_iff Field.named?_name Field.mem_all Field.nodup_all _ f
  have hheaders : c'.headers = c.headers := hreflects.headers
  have hsame : c' = c := by
    cases c
    cases c'
    simp_all
  rw [hloaded, hsame]

/-- Every configuration is read back from the text of its document, and so from any other
text that says the same, in whatever order it names the levels and the fields: the very
configuration is loaded, with one debug notice of its mask and of the number of its
extensions. A tracer made from what was loaded makes the trace calls of exactly the levels
of the configuration, and its entries show exactly the fields. -/
theorem configurations_are_read_back (c : Config) (h : c.levels.Defined) :
    Json.read? c.toJson.text = some c.toJson ∧ c.document.InText c.toJson.text
    ∧ ∀ (text : String) (d : Document), d.InText text →
        d.levels.Perm c.document.levels → d.fields.Perm c.document.fields →
        d.headers = some c.headers →
        let loaded := Config.ofText text
        loaded.result = .ok c
        ∧ loaded.notices = [.configLoaded c.levels.mask c.headers.length]
        ∧ loaded.notices.map Notice.severity = [.debug]
        ∧ ∀ (console : Console) (c' : Config), loaded.result = .ok c' →
          let t := Tracer.ofConfig console c'
          (∀ (react : React) (call : TraceCall) (st : Session), t.perform react call st
            = if c.levels.has call.level then
                Deed.performAll react st (t.work call)
              else st)
          ∧ ∀ (tag : Tag) (inHeader : Bool), t.work (.tagEntry tag inHeader)
            = [.form (tag.entry c.fields inHeader),
               .ask (some console) (.write .stdout (tag.entry c.fields inHeader)),
               .ask (some console) (.flush .stdout)] := by
  have hread : Json.read? c.toJson.text = some c.toJson := Json.read?_text c.numberless_toJson
  refine ⟨hread, ⟨_, hread, c.writtenAs_toJson⟩, ?_⟩
  intro text d hd hlevels hfields hheaders loaded
  have hlevelsOnce := nodup_keys_switches Level.named?_name Level.nodup_all c.levels.has
  have hfieldsOnce := nodup_keys_switches Field.named?_name Field.nodup_all c.fields.shows
  have hloaded : loaded
      = { result := .ok c, notices := [.configLoaded c.levels.mask c.headers.length] } := by
    show Config.ofText text = _
    rw [hd.ofText, ← ofDocument_document h]
    refine ofDocument_congr (fun name => ?_) (fun name => ?_) hheaders
    · exact (Document.lastOf?_of_perm hlevels.symm hlevelsOnce name).symm
    · exact (Document.lastOf?_of_perm hfields.symm hfieldsOnce name).symm
  rw [hloaded]
  refine ⟨rfl, rfl, rfl, ?_⟩
  intro console c' hc'
  obtain rfl : c = c' := Except.ok.inj hc'
  refine ⟨?_, fun _ _ => rfl⟩
  intro react call st
  rw [Tracer.perform_deeds]
  exact apply_ite (Deed.performAll react st) ..

/-- Extensions with a quotation mark, a control character and no characters at all, and two
levels and a field in another order. -/
theorem configurations_are_read_back_escaped :
    let c : Config :=
      { levels := .ofList [.parse, .raw], fields := { access := true }
        headers := ["h\"", "\u0001\\", "", "ж"] }
    let text := (Value.array [.ofSwitches c.document.levels.reverse,
      .ofSwitches c.document.fields.reverse, .ofExtensions (some c.headers)]).text
    c.levels.Defined ∧ (Config.ofText c.toJson.text).result = .ok c
      ∧ (Config.ofText text).result = .ok c := by
  intro c text
  have hdefined : c.levels.Defined := LevelSet.defined_ofList _
  obtain ⟨-, hwritten, hback⟩ := configurations_are_read_back c hdefined
  let d : Document :=
    ⟨c.document.levels.reverse, c.document.fields.reverse, some c.headers⟩
  have hd : d.InText text :=
    ⟨_, Json.read?_text (by unfold Json.Value.Numberless; decide), .values⟩
  exact ⟨hdefined, (hback _ _ hwritten (.refl _) (.refl _) rfl).1,
    (hback text d hd (List.reverse_perm _) (List.reverse_perm _) rfl).1⟩

end Config

end ScanTrace
