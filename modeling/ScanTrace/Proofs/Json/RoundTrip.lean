/-
Values that were written are read back. The reader keeps what is open on a
stack and never looks at it while a value is read, so the tokens of a value
take it from waiting for a value to having that value, whatever the stack is
and whatever tokens come behind (`read?_tokens`). The items of an array and
the entries of an object that follow a first one are read into the frame of
that one (`read?_items`, `read?_entries`); the induction is on the values
inside each other.

Together with the tokens of a text (Lexing.lean) this gives back every value
without numbers from its text (`read?_text`). A value has numbers in it if
and only if its tokens do, and so `Value.Numberless` speaks of the tokens.
-/
import ScanTrace.Json.Printer
import ScanTrace.Json.Reader
import ScanTrace.Proofs.Json.Lexing

namespace ScanTrace.Json

-- ============================================================ token lists

/-- Behind a first list the others come each with a comma. -/
theorem separated_cons (ts : List Token) (rest : List (List Token)) :
    separated (ts :: rest) = ts ++ rest.flatMap (.comma :: ·) := by
  induction rest generalizing ts with
  | nil => simp [separated]
  | cons us rest ih =>
    rw [separated, ih, List.flatMap_cons]
    · simp
    · exact nofun

/-- A value does not begin with a bracket that closes. -/
theorem Value.tokens_eq_cons (v : Value) :
    ∃ t ts, v.tokens = t :: ts ∧ t ≠ .bracketClose := by
  cases v <;> (rw [Value.tokens]; exact ⟨_, _, rfl, nofun⟩)

-- ======================================================= steps of the reader

namespace State

theorem read?_step {s s' : State} {t : Token} (h : s.next? t = some s') (rest : List Token) :
    s.read? (t :: rest) = s'.read? rest := by
  rw [State.read?, h]

/-- Behind a bracket that opens, a first item is read as any other is. -/
theorem read?_opened (stack : List Frame) (v : Value) (rest : List Token) :
    (opened stack).read? (v.tokens ++ rest)
      = (value (.items [] :: stack)).read? (v.tokens ++ rest) := by
  obtain ⟨t, ts, hv, ht⟩ := v.tokens_eq_cons
  have hnext : (opened stack).next? t = (value (.items [] :: stack)).next? t := by
    cases t with
    | bracketClose => exact absurd rfl ht
    | _ => rfl
  rw [hv, List.cons_append, State.read?, State.read?, hnext]

end State

-- ========================================================= tokens of a value

mutual

/-- The tokens of a value bring the reader to that value. -/
theorem read?_tokens : ∀ (v : Value) (stack : List Frame) (rest : List Token),
    (State.value stack).read? (v.tokens ++ rest) = (State.complete stack v).read? rest
  | .null, stack, rest => by
    rw [Value.tokens]
    exact State.read?_step rfl rest
  | .bool b, stack, rest => by
    rw [Value.tokens]
    exact State.read?_step rfl rest
  | .number written, stack, rest => by
    rw [Value.tokens]
    exact State.read?_step rfl rest
  | .string text, stack, rest => by
    rw [Value.tokens]
    exact State.read?_step rfl rest
  | .array [], stack, rest => by
    have hopen : (State.value stack).next? .bracketOpen = some (.opened stack) := rfl
    have hclose : (State.opened stack).next? .bracketClose
        = some (.complete stack (.array [])) := rfl
    rw [Value.tokens, Value.tokensEach]
    exact (State.read?_step hopen _).trans (State.read?_step hclose rest)
  | .array (v :: vs), stack, rest => by
    have hopen : (State.value stack).next? .bracketOpen = some (.opened stack) := rfl
    have htokens : (Value.array (v :: vs)).tokens ++ rest
        = .bracketOpen :: (v.tokens ++ ((Value.tokensEach vs).flatMap (.comma :: ·)
          ++ .bracketClose :: rest)) := by
      simp [Value.tokens, Value.tokensEach, separated_cons]
    rw [htokens, State.read?_step hopen, State.read?_opened, read?_tokens v, read?_items vs]
    rfl
  | .object [], stack, rest => by
    have hopen : (State.value stack).next? .braceOpen = some (.openedObject stack) := rfl
    have hclose : (State.openedObject stack).next? .braceClose
        = some (.complete stack (.object [])) := rfl
    rw [Value.tokens, Value.tokensEntries]
    exact (State.read?_step hopen _).trans (State.read?_step hclose rest)
  | .object ((key, v) :: es), stack, rest => by
    have hopen : (State.value stack).next? .braceOpen = some (.openedObject stack) := rfl
    have hname : (State.openedObject stack).next? (.string key)
        = some (.colon stack [] key) := rfl
    have hcolon : (State.colon stack [] key).next? .colon
        = some (.value (.member [] key :: stack)) := rfl
    have htokens : (Value.object ((key, v) :: es)).tokens ++ rest
        = .braceOpen :: .string key :: .colon :: (v.tokens
          ++ ((Value.tokensEntries es).flatMap (.comma :: ·) ++ .braceClose :: rest)) := by
      simp [Value.tokens, Value.tokensEntries, separated_cons]
    rw [htokens, State.read?_step hopen, State.read?_step hname, State.read?_step hcolon,
      read?_tokens v, read?_entries es]
    rfl

/-- Behind an item, the tokens of the others bring the reader to the array. -/
theorem read?_items : ∀ (vs : List Value) (v : Value) (before : List Value)
    (stack : List Frame) (rest : List Token),
    (State.complete (.items before :: stack) v).read?
        ((Value.tokensEach vs).flatMap (.comma :: ·) ++ .bracketClose :: rest)
      = (State.complete stack (.array ((v :: before).reverse ++ vs))).read? rest
  | [], v, before, stack, rest => by
    have hclose : (State.complete (.items before :: stack) v).next? .bracketClose
        = some (.complete stack (.array (v :: before).reverse)) := rfl
    rw [Value.tokensEach, List.append_nil]
    exact State.read?_step hclose rest
  | w :: vs, v, before, stack, rest => by
    have hcomma : (State.complete (.items before :: stack) v).next? .comma
        = some (.value (.items (v :: before) :: stack)) := rfl
    have htokens : (Value.tokensEach (w :: vs)).flatMap (.comma :: ·) ++ .bracketClose :: rest
        = .comma :: (w.tokens ++ ((Value.tokensEach vs).flatMap (.comma :: ·)
          ++ .bracketClose :: rest)) := by
      simp [Value.tokensEach]
    have hitems : (w :: v :: before).reverse ++ vs = (v :: before).reverse ++ w :: vs := by
      simp
    rw [htokens, State.read?_step hcomma, read?_tokens w, read?_items vs, hitems]

/-- Behind an entry, the tokens of the others bring the reader to the object. -/
theorem read?_entries : ∀ (es : Entries) (key : Option String) (v : Value) (before : Entries)
    (stack : List Frame) (rest : List Token),
    (State.complete (.member before key :: stack) v).read?
        ((Value.tokensEntries es).flatMap (.comma :: ·) ++ .braceClose :: rest)
      = (State.complete stack (.object (((key, v) :: before).reverse ++ es))).read? rest
  | [], key, v, before, stack, rest => by
    have hclose : (State.complete (.member before key :: stack) v).next? .braceClose
        = some (.complete stack (.object ((key, v) :: before).reverse)) := rfl
    rw [Value.tokensEntries, List.append_nil]
    exact State.read?_step hclose rest
  | (name, w) :: es, key, v, before, stack, rest => by
    have hcomma : (State.complete (.member before key :: stack) v).next? .comma
        = some (.name stack ((key, v) :: before)) := rfl
    have hname : (State.name stack ((key, v) :: before)).next? (.string name)
        = some (.colon stack ((key, v) :: before) name) := rfl
    have hcolon : (State.colon stack ((key, v) :: before) name).next? .colon
        = some (.value (.member ((key, v) :: before) name :: stack)) := rfl
    have htokens : (Value.tokensEntries ((name, w) :: es)).flatMap (.comma :: ·)
          ++ .braceClose :: rest
        = .comma :: .string name :: .colon :: (w.tokens
          ++ ((Value.tokensEntries es).flatMap (.comma :: ·) ++ .braceClose :: rest)) := by
      simp [Value.tokensEntries]
    have hentries : ((name, w) :: (key, v) :: before).reverse ++ es
        = ((key, v) :: before).reverse ++ (name, w) :: es := by
      simp
    rw [htokens, State.read?_step hcomma, State.read?_step hname, State.read?_step hcolon,
      read?_tokens w, read?_entries es, hentries]

end

-- ================================================================== texts

/-- There is no number in a value. -/
def Value.Numberless (v : Value) : Prop := ∀ t ∈ v.tokens, t.isNumber = false

/-- The text of a value without numbers is read as that value. -/
theorem read?_text {v : Value} (h : v.Numberless) : read? v.text = some v := by
  have hread := read?_tokens v [] []
  rw [List.append_nil] at hread
  unfold read? Value.text
  rw [String.toList_ofList, lex_text h]
  exact hread

theorem mem_separated {t : Token} {tss : List (List Token)} (h : t ∈ separated tss) :
    t = .comma ∨ ∃ ts ∈ tss, t ∈ ts := by
  cases tss with
  | nil => cases h
  | cons ts rest =>
    rw [separated_cons] at h
    simp only [List.mem_append, List.mem_flatMap, List.mem_cons] at h
    rcases h with h | ⟨us, hus, rfl | ht⟩
    · exact .inr ⟨ts, List.mem_cons_self, h⟩
    · exact .inl rfl
    · exact .inr ⟨us, List.mem_cons_of_mem _ hus, ht⟩

theorem Value.numberless_ofString (s : String) : (Value.ofString s).Numberless := by
  intro t ht
  rw [Value.ofString, Value.tokens] at ht
  rw [List.mem_singleton.mp ht]
  rfl

theorem Value.numberless_bool (b : Bool) : (Value.bool b).Numberless := by
  intro t ht
  rw [Value.tokens] at ht
  rw [List.mem_singleton.mp ht]
  rfl

theorem Value.tokensEach_eq_map (vs : List Value) : Value.tokensEach vs = vs.map Value.tokens := by
  induction vs with
  | nil => rfl
  | cons v vs ih => rw [Value.tokensEach, ih, List.map_cons]

/-- An array has no numbers in it if none of its values has. -/
theorem Value.numberless_array {vs : List Value} (h : ∀ v ∈ vs, v.Numberless) :
    (Value.array vs).Numberless := by
  intro t ht
  rw [Value.tokens, Value.tokensEach_eq_map] at ht
  rcases List.mem_cons.mp ht with rfl | ht
  · rfl
  rcases List.mem_append.mp ht with ht | ht
  · rcases mem_separated ht with rfl | ⟨ts, hts, ht⟩
    · rfl
    · obtain ⟨v, hv, rfl⟩ := List.mem_map.mp hts
      exact h v hv t ht
  · rw [List.mem_singleton.mp ht]
    rfl

theorem Value.tokensEntries_eq_map (es : Entries) :
    Value.tokensEntries es = es.map fun e => .string e.1 :: .colon :: e.2.tokens := by
  induction es with
  | nil => rfl
  | cons e es ih => rw [Value.tokensEntries, ih, List.map_cons]

/-- An object has no numbers in it if none of its values has. -/
theorem Value.numberless_ofEntries {es : List (String × Value)}
    (h : ∀ e ∈ es, e.2.Numberless) : (Value.ofEntries es).Numberless := by
  intro t ht
  rw [Value.ofEntries, Value.tokens, Value.tokensEntries_eq_map] at ht
  rcases List.mem_cons.mp ht with rfl | ht
  · rfl
  rcases List.mem_append.mp ht with ht | ht
  · rcases mem_separated ht with rfl | ⟨ts, hts, ht⟩
    · rfl
    · simp only [List.mem_map, exists_exists_and_eq_and] at hts
      obtain ⟨e, he, rfl⟩ := hts
      rcases List.mem_cons.mp ht with rfl | ht
      · rfl
      rcases List.mem_cons.mp ht with rfl | ht
      · rfl
      · exact h e he t ht
  · rw [List.mem_singleton.mp ht]
    rfl

end ScanTrace.Json
