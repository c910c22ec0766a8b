import ProductLock.Json.Reading
import ProductLock.Proofs.JsonTokens

/-!
# Values in the place they stand in

A text is read from an empty place, but the values in it are read inside lists and records that are
still open. What is open around a value takes no part in reading it: a run can be repeated with
more open around it, since each of its steps can (`step_under`, `run_under`). So a text that is
read on its own is read as the same value wherever it stands, and lists and records are put
together from the values in them.
-/

namespace ProductLock.Json

variable {α : Type} {s s' : State} {t : Token} {ts : List Token} {outer : List Frame}
  {d : Document} {cs : List Char}

/-! ## Runs with more around them -/

/-- The state with more open around it. -/
def State.under (outer : List Frame) : State → State
  | .value mayEnd inner => .value mayEnd (inner ++ outer)
  | .name mayEnd members inner => .name mayEnd members (inner ++ outer)
  | .colon members last inner => .colon members last (inner ++ outer)
  | .rest frame inner => .rest frame (inner ++ outer)
  | .done d => complete d outer

theorem under_complete (d : Document) (inner outer : List Frame) :
    (complete d inner).under outer = complete d (inner ++ outer) := by
  cases inner with
  | nil => rfl
  | cons frame inner => cases frame <;> rfl

theorem step_value_of_scalar {mayEnd : Bool} (h : scalar? t = some d) :
    step (.value mayEnd outer) t = some (complete d outer) := by
  rw [step, h]
  · rfl
  · rintro rfl
    cases h
  · rintro rfl
    cases h
  · rintro _ rfl
    cases h

/-- Where a value may stand, a token that neither begins nor ends anything is a whole value. -/
theorem exists_scalar_of_step {mayEnd : Bool} (h : step (.value mayEnd outer) t = some s')
    (hlist : t ≠ .beginList) (hrecord : t ≠ .beginRecord) (hend : t ≠ .endList) :
    ∃ d, scalar? t = some d ∧ s' = complete d outer := by
  rw [step] at h
  · obtain ⟨d, hd, rfl⟩ := Option.map_eq_some_iff.1 h
    exact ⟨d, hd, rfl⟩
  · exact hlist
  · exact hrecord
  · exact fun _ h => absurd h hend

/-- Where a value may stand, a list can end only if it has just begun. -/
theorem step_value_endList_eq_some_iff {mayEnd : Bool} :
    step (.value mayEnd outer) .endList = some s' ↔
      mayEnd = true ∧ ∃ above, outer = .list [] :: above ∧ s' = complete (.list []) above := by
  rcases outer with _ | ⟨⟨_ | _⟩ | _, above⟩
  case cons.list.nil => cases mayEnd <;> simp [step, eq_comm]
  all_goals simp [step, scalar?]

/-- A step looks at the innermost list or record only. -/
theorem step_under (outer : List Frame) (h : step s t = some s') :
    step (s.under outer) t = some (s'.under outer) := by
  cases s with
  | value mayEnd inner =>
      cases t with
      | beginList | beginRecord =>
          cases h
          rfl
      | endList =>
          obtain ⟨rfl, above, rfl, rfl⟩ := step_value_endList_eq_some_iff.1 h
          rw [under_complete]
          rfl
      | endRecord | colon | comma | text | number | null | flag =>
          obtain ⟨d, hd, rfl⟩ := exists_scalar_of_step h nofun nofun nofun
          rw [under_complete]
          exact step_value_of_scalar hd
  | name mayEnd members inner =>
      cases t with
      | text s =>
          cases h
          rfl
      | endRecord =>
          cases mayEnd with
          | false => cases h
          | true =>
              cases h
              rw [under_complete]
              rfl
      | _ => cases h
  | colon members name inner =>
      cases t with
      | colon =>
          cases h
          rfl
      | _ => cases h
  | rest frame inner =>
      cases frame with
      | list items =>
          cases t with
          | comma =>
              cases h
              rfl
          | endList =>
              cases h
              rw [under_complete]
              rfl
          | _ => cases h
      | record members name =>
          cases t with
          | comma =>
              cases h
              rfl
          | endRecord =>
              cases h
              rw [under_complete]
              rfl
          | _ => cases h
  | done d => cases h

theorem run_under (outer : List Frame) (h : ts.foldlM step s = some s') :
    ts.foldlM step (s.under outer) = some (s'.under outer) := by
  induction ts generalizing s with
  | nil =>
      cases h
      rfl
  | cons t ts ih =>
      obtain ⟨s₁, hs₁, h⟩ := Option.bind_eq_some_iff.1 h
      exact Option.bind_eq_some_iff.2 ⟨s₁.under outer, step_under outer hs₁, ih h⟩

/-- Where a list may also end, a value may still stand. -/
theorem step_value_mayEnd {mayEnd : Bool} (h : step (.value false outer) t = some s') :
    step (.value mayEnd outer) t = some s' := by
  cases t with
  | endList => exact absurd (step_value_endList_eq_some_iff.1 h).1 Bool.false_ne_true
  | _ => exact h

/-! ## Values -/

/-- The tokens are read as this value, in whatever it stands. -/
def IsValue (ts : List Token) (d : Document) : Prop :=
  ∀ mayEnd outer, ts.foldlM step (.value mayEnd outer) = some (complete d outer)

theorem isValue_iff_run : IsValue ts d ↔ ts.foldlM step (.value false []) = some (.done d) := by
  refine ⟨fun h => h false [], fun h mayEnd outer => ?_⟩
  have hrun := run_under outer h
  cases ts with
  | nil => cases h
  | cons t ts =>
      obtain ⟨s, hs, hrun⟩ := Option.bind_eq_some_iff.1 hrun
      exact Option.bind_eq_some_iff.2 ⟨s, step_value_mayEnd hs, hrun⟩

theorem isValue_of_scalar (h : scalar? t = some d) : IsValue [t] d := by
  intro mayEnd outer
  rw [List.foldlM_cons, step_value_of_scalar h]
  rfl

/-- The text is read as this value, in whatever it stands. -/
def Reads (cs : List Char) (d : Document) : Prop := ∃ ts, tokens? cs = some ts ∧ IsValue ts d

theorem read?_eq_some_iff {s : String} : read? s = some d ↔ Reads s.toList d := by
  simp only [read?, Reads, isValue_iff_run, Option.bind_eq_bind, Option.bind_eq_some_iff]
  refine exists_congr fun ts => and_congr_right fun _ => ⟨fun h => ?_, fun h => ⟨_, h, rfl⟩⟩
  obtain ⟨s, hs, h⟩ := h
  split at h
  next =>
    cases h
    exact hs
  next => cases h

/-! ## Lists and records -/

variable {β : Type} {items : List α} {tokens : α → List Token} {value : α → β}

/-- Items with commas between them, if each is taken in where one may stand (`fresh`), and a comma
leads back there from where it has been taken in (`held`). -/
theorem run_intercalate (fresh : Bool → List β → State) (held : List β → State)
    (hcomma : ∀ l, step (held l) .comma = some (fresh false l)) (hne : items ≠ [])
    (h : ∀ x ∈ items, ∀ b l, (tokens x).foldlM step (fresh b l) = some (held (l ++ [value x])))
    (b : Bool) (l : List β) :
    ([Token.comma].intercalate (items.map tokens)).foldlM step (fresh b l) =
      some (held (l ++ items.map value)) := by
  induction items generalizing b l with
  | nil => exact absurd rfl hne
  | cons x items ih =>
      obtain ⟨hx, hitems⟩ := List.forall_mem_cons.1 h
      cases items with
      | nil => simpa [List.intercalate] using hx b l
      | cons y items =>
          rw [List.map_cons, List.map_cons, List.intercalate_cons_cons, List.foldlM_append,
            List.foldlM_append, hx]
          simp only [bind, Option.bind_some, List.foldlM_cons, hcomma, List.foldlM_nil, pure]
          rw [← List.map_cons, ih nofun hitems, List.append_assoc]
          rfl

/-- Such items between a token that leads to where the first may stand and one that closes what
they stand in (`close`), also where there are none. -/
theorem run_enclosed (fresh : Bool → List β → State) (held close : List β → State) {b e : Token}
    (hbegin : step s b = some (fresh true []))
    (hcomma : ∀ l, step (held l) .comma = some (fresh false l))
    (hend : ∀ l, step (held l) e = some (close l))
    (hempty : step (fresh true []) e = some (close []))
    (h : ∀ x ∈ items, ∀ b l, (tokens x).foldlM step (fresh b l) = some (held (l ++ [value x]))) :
    (b :: [Token.comma].intercalate (items.map tokens) ++ [e]).foldlM step s =
      some (close (items.map value)) := by
  have hlast (s : State) : [e].foldlM step s = step s e := by
    rw [List.foldlM_cons]
    exact bind_pure (step s e)
  rw [List.cons_append, List.foldlM_cons, hbegin]
  show List.foldlM step (fresh true []) _ = _
  by_cases hne : items = []
  · subst hne
    exact (hlast _).trans hempty
  · rw [List.foldlM_append, run_intercalate fresh held hcomma hne h true []]
    exact (hlast _).trans (hend _)

theorem isValue_list {value : α → Document} (h : ∀ x ∈ items, IsValue (tokens x) (value x)) :
    IsValue (.beginList :: [.comma].intercalate (items.map tokens) ++ [.endList])
      (.list (items.map value)) := by
  intro mayEnd outer
  exact run_enclosed (fun b l => .value b (.list l :: outer)) (fun l => .rest (.list l) outer)
    (fun l => complete (.list l) outer) rfl (fun _ => rfl) (fun _ => rfl) rfl
    fun x hx b l => h x hx b (.list l :: outer)

theorem isValue_record {name : α → Option String} {value : α → Document}
    (h : ∀ m ∈ items, IsValue (tokens m) (value m)) :
    IsValue (.beginRecord ::
        [.comma].intercalate (items.map fun m => .text (name m) :: .colon :: tokens m) ++
        [.endRecord])
      (.record (items.map fun m => (name m, value m))) := by
  intro mayEnd outer
  exact run_enclosed (fun b l => .name b l outer) (fun l => .rest (.record l none) outer)
    (fun l => complete (.record l) outer) rfl (fun _ => rfl) (fun _ => rfl) rfl
    fun m hm b l => h m hm false (.record l (name m) :: outer)

/-! ## The texts of lists and records -/

variable {lead sep trail : List Char} {text : α → List Char} {value : α → Document}

theorem Reads.padded (hlead : AreBlank lead) (htrail : AreBlank trail) (h : Reads cs d) :
    Reads (lead ++ cs ++ trail) d := by
  obtain ⟨ts, hts, hvalue⟩ := h
  exact ⟨ts, tokens?_padded hlead htrail hts, hvalue⟩

theorem read?_quote (s : String) : read? (quote s) = some (.text s) :=
  read?_eq_some_iff.2 ⟨_, tokens?_quote s, isValue_of_scalar rfl⟩

theorem read?_true : read? "true" = some (.flag true) := by
  refine read?_eq_some_iff.2 ⟨[.flag true], ?_, isValue_of_scalar rfl⟩
  show tokens? ('t' :: "rue".toList) = _
  rw [tokens?_word (by decide) (by decide) (by decide)]
  exact Option.bind_eq_some_iff.2 ⟨.flag true, by decide, by rw [tokens?.eq_def]; rfl⟩

theorem Reads.list (hlead : AreBlank lead) (hsep : AreBlank sep) (htrail : AreBlank trail)
    (h : ∀ x ∈ items, Reads (text x) (value x)) :
    Reads ('[' :: (lead ++ (',' :: sep).intercalate (items.map text) ++ trail) ++ [']'])
      (.list (items.map value)) := by
  choose! tokens htokens hvalue using h
  have hitems := tokens?_padded hlead htrail (tokens?_intercalate hsep htokens)
  exact ⟨_, tokens?_enclosed rfl rfl hitems, isValue_list hvalue⟩

theorem Reads.record {name : α → Option String} {written : α → List Char} (hlead : AreBlank lead)
    (hsep : AreBlank sep) (htrail : AreBlank trail)
    (hname : ∀ m ∈ items, tokens? (written m) = some [.text (name m)])
    (hvalue : ∀ m ∈ items, Reads (text m) (value m)) :
    Reads ('\x7b' :: (lead ++
        (',' :: sep).intercalate (items.map fun m => written m ++ ':' :: text m) ++ trail) ++
        ['\x7d'])
      (.record (items.map fun m => (name m, value m))) := by
  choose! tokens htokens hvalue using hvalue
  have hmember : ∀ m ∈ items, tokens? (written m ++ ':' :: text m) =
      some (.text (name m) :: .colon :: tokens m) := by
    intro m hm
    rw [tokens?_append (stops_cons rfl _) (hname m hm), tokens?_mark rfl, htokens m hm]
    rfl
  have hitems := tokens?_padded hlead htrail (tokens?_intercalate hsep hmember)
  exact ⟨_, tokens?_enclosed rfl rfl hitems, isValue_record hvalue⟩

/-! ## Records with given members -/

/-- What a text says, if it can be read. -/
def document (s : String) : Document := (read? s).getD .null

theorem reads_document {s : String} (h : (read? s).isSome = true) :
    Reads s.toList (document s) := by
  obtain ⟨d, hd⟩ := Option.isSome_iff_exists.1 h
  rw [document, hd]
  exact read?_eq_some_iff.1 hd

/-- The name that a text in quotes gives to a member of a record. -/
def name? (s : String) : Option String :=
  match tokens? s.toList with
  | some [.text name] => name
  | _ => none

theorem name?_eq_some_iff {s name : String} :
    name? s = some name ↔ tokens? s.toList = some [.text (some name)] := by
  unfold name?
  split
  next h => simp [h]
  next h => exact ⟨nofun, fun hs => absurd hs (h _)⟩

/-- A record as it is written: the name and the value of each member are given as texts. -/
def recordText (members : List (String × String)) : String :=
  "\x7b" ++ ",".intercalate (members.map fun m => m.1 ++ ":" ++ m.2) ++ "\x7d"

theorem read?_recordText {members : List (String × String)}
    (h : ∀ m ∈ members, (name? m.1).isSome = true ∧ (read? m.2).isSome = true) :
    read? (recordText members) =
      some (.record (members.map fun m => (name? m.1, document m.2))) := by
  have hname : ∀ m ∈ members, tokens? m.1.toList = some [.text (name? m.1)] := by
    intro m hm
    obtain ⟨name, hname⟩ := Option.isSome_iff_exists.1 (h m hm).1
    rw [hname]
    exact name?_eq_some_iff.1 hname
  have hrecord := Reads.record .nil .nil .nil hname fun m hm => reads_document (h m hm).2
  rw [read?_eq_some_iff]
  convert hrecord using 1
  simp [recordText, String.toList_intercalate, Function.comp_def]

/-- The text with blanks around it. -/
def Padded (s padded : String) : Prop :=
  ∃ lead trail : String, AreBlank lead.toList ∧ AreBlank trail.toList ∧ padded = lead ++ s ++ trail

theorem Padded.read? {s padded : String} {d : Document} (h : Padded s padded)
    (hs : Json.read? s = some d) : Json.read? padded = some d := by
  obtain ⟨lead, trail, hlead, htrail, rfl⟩ := h
  rw [read?_eq_some_iff, String.toList_append, String.toList_append]
  exact (read?_eq_some_iff.1 hs).padded hlead htrail

end ProductLock.Json
