/-
  Scriptorium/Json.lean
  =====================
  **JSON values, their schemas, and what reads them.**

  A `Value` keeps what a reader of the text can see and a schema cannot: how a
  number is spelled, and whether a string contains the escape of a surrogate
  without its partner.  Two languages over such values are compared here: that of
  a `Schema`, by the rules of JSON Schema (`Valid`), and that of a typed decoder.
  `Reads` says that a decoder accepts, of the values valid under a schema, the
  `Readable` ones, and returns what they mean; `Reads.optional` and
  `Reads.required` carry it over to the members of an object.
-/
import Mathlib.Tactic.Common
import Mathlib.Data.Rat.Defs
import Mathlib.Algebra.Order.Field.Rat
import Mathlib.Tactic.Linarith
import Mathlib.Data.List.Nodup

namespace Json

/-! ### Values -/

inductive CodePoint where
  | scalar (c : Char)
  | surrogate (code : UInt16)
deriving DecidableEq, Repr

abbrev Text : Type := List CodePoint

def Text.ofString (s : String) : Text := s.toList.map .scalar

def CodePoint.toChar? : CodePoint → Option Char
  | .scalar c => some c
  | .surrogate _ => none

/-- The text as a string, in which no lone surrogate can stand. -/
def Text.toString? (text : Text) : Option String :=
  (text.mapM CodePoint.toChar?).map String.ofList

/-- A number as it is spelled: a sign, the digits before the point as a number, the
    digits after it, and an exponent. -/
structure Number where
  negative : Bool
  whole : Nat
  fraction : List (Fin 10)
  exponent : Option Int
deriving DecidableEq, Repr

inductive Value where
  | null
  | bool (b : Bool)
  | number (n : Number)
  | string (text : Text)
  | array (items : List Value)
  | object (members : List (Text × Value))

def Number.mantissa (n : Number) : Nat := n.fraction.foldl
    (fun m digit => m * 10 + digit.val) n.whole

def Number.value (n : Number) : ℚ :=
  (if n.negative then -1 else 1) * n.mantissa * 10 ^ (n.exponent.getD 0 - n.fraction.length)

/-- Neither a fraction nor an exponent is written. -/
def Number.Plain (n : Number) : Prop := n.fraction = [] ∧ n.exponent = none

instance (n : Number) : Decidable n.Plain := by unfold Number.Plain; infer_instance

/-- The members of an object have different names. -/
def UniqueNames (members : List (Text × Value)) : Prop := (members.map Prod.fst).Nodup

/-- A member is there under a name, and none is. -/
def Given (members : List (Text × Value)) (name : String) (value : Value) : Prop :=
  (Text.ofString name, value) ∈ members

def Absent (members : List (Text × Value)) (name : String) : Prop :=
  ∀ value, ¬ Given members name value

/-! ### Schemas -/

/-- The schema of one property; `mapOf` is an object with that `additionalProperties`
    and no declared ones. -/
inductive Schema where
  | string
  | boolean
  | integer (minimum : Int)
  | mapOf (values : Schema)

/-- An integer is any number that is integral, however it is spelled. -/
def Schema.Valid : Schema → Value → Prop
  | .string, .string _ => True
  | .boolean, .bool _ => True
  | .integer minimum, .number n => (∃ k : Int, n.value = k) ∧ minimum ≤ n.value
  | .mapOf values, .object members =>
    UniqueNames members ∧ ∀ m ∈ members, values.Valid m.2
  | _, _ => False

structure ObjectSchema where
  properties : List (String × Schema)
  required : List String

/-- Undeclared members are allowed. -/
def ObjectSchema.Valid (schema : ObjectSchema) : Value → Prop
  | .object members =>
    UniqueNames members ∧
      (∀ property ∈ schema.properties, ∀ value, Given members property.1 value →
        property.2.Valid value) ∧
      ∀ name ∈ schema.required, ∃ value, Given members name value
  | _ => False

/-! ### What a typed reader can take -/

/-- No lone surrogate. -/
def Text.Proper (text : Text) : Prop := ∀ c ∈ text, c.toChar?.isSome

/-- The values a reader with strings, booleans and 32-bit integers can take. -/
def Schema.Readable : Schema → Value → Prop
  | .string, .string text => text.Proper
  | .integer _, .number n => n.Plain ∧ n.whole < 2 ^ 32
  | .mapOf values, .object members => ∀ m ∈ members, m.1.Proper ∧ values.Readable m.2
  | _, _ => True

def ObjectSchema.Readable (schema : ObjectSchema) : Value → Prop
  | .object members =>
    (∀ m ∈ members, m.1.Proper) ∧
      ∀ property ∈ schema.properties, ∀ value, Given members property.1 value →
        property.2.Readable value
  | _ => True

/-- Of the values valid under a schema, a reader takes the readable ones and returns
    what they mean. -/
structure Reads {α : Type} (schema : Schema) (read : Value → Option α) (means : Value → α → Prop) :
    Prop where
  takes : ∀ value, schema.Valid value → ((∃ x, read value = some x) ↔ schema.Readable value)
  keeps : ∀ value x, schema.Valid value → read value = some x → means value x

/-! ### Typed readers -/

def deserializeString : Value → Option String
  | .string text => text.toString?
  | _ => none

def deserializeBool : Value → Option Bool
  | .bool b => some b
  | _ => none

/-- A number with a fraction or an exponent is read as a float, and so is `-0`; neither
    is taken for an integer. -/
def deserializeU32 : Value → Option UInt32
  | .number n =>
    if n.Plain ∧ n.negative = false ∧ n.whole < 2 ^ 32 then some (UInt32.ofNat n.whole) else none
  | _ => none

/-- `HashMap::insert`. -/
def insertEntry (entries : List (String × String)) (entry : String × String) :
    List (String × String) :=
  entries.filter (fun other => other.1 ≠ entry.1) ++ [entry]

def deserializeEntry (m : Text × Value) : Option (String × String) := do
  let key ← m.1.toString?
  let value ← deserializeString m.2
  pure (key, value)

def deserializeMap : Value → Option (List (String × String))
  | .object members => (members.mapM deserializeEntry).map (List.foldl insertEntry [])
  | _ => none

/-- The fields of a struct, as its derived decoder finds them: an object may have other
    members, but none of the fields twice; an array gives the fields in order. -/
def structFields (names : List String) : Value → Option (String → Option Value)
  | .object members =>
    if members.all (fun m => m.1.toString?.isSome) ∧
        ∀ name ∈ names, (members.map Prod.fst).count (Text.ofString name) ≤ 1 then
      some fun name => members.lookup (Text.ofString name)
    else none
  | .array items => if items.length ≤ names.length then some fun name =>
    items[names.idxOf name]? else none
  | _ => none

/-- A field without `#[serde(default)]`. -/
def required {α : Type} (read : Value → Option α) (field : Option Value) : Option α :=
  field.bind read

/-- A field with it. -/
def optional {α : Type} (default : α) (read : Value → Option α) : Option Value → Option α
  | none => some default
  | some value => read value

/-! ### Texts and numbers -/

theorem Text.toString?_isSome {text : Text} : text.toString?.isSome ↔ text.Proper := by
  unfold Text.toString? Text.Proper
  rw [Option.isSome_map]
  induction text with
  | nil => simp
  | cons c rest ih =>
    rw [List.forall_mem_cons, ← ih, List.mapM_cons]
    cases c with
    | scalar c => cases List.mapM CodePoint.toChar? rest <;> simp [CodePoint.toChar?]
    | surrogate code => simp [CodePoint.toChar?]

theorem Text.eq_ofString {text : Text} {s : String} (h : text.toString? = some s) :
    text = Text.ofString s := by
  unfold Text.toString? at h
  obtain ⟨chars, hchars, rfl⟩ := Option.map_eq_some_iff.mp h
  rw [Text.ofString, String.toList_ofList]
  clear h
  induction text generalizing chars with
  | nil =>
    obtain rfl : [] = chars := by simpa using hchars
    rfl
  | cons c rest ih =>
    cases c with
    | surrogate code => simp [List.mapM_cons, CodePoint.toChar?] at hchars
    | scalar c =>
      rcases hrest : List.mapM CodePoint.toChar? rest with _ | tail
      · simp [List.mapM_cons, hrest] at hchars
      · obtain rfl : c :: tail = chars := by
          simpa [List.mapM_cons, hrest, CodePoint.toChar?] using hchars
        rw [List.map_cons, ih tail hrest]

@[simp] theorem Text.toString?_ofString (s : String) : (Text.ofString s).toString? = some s := by
  have hchars : (Text.ofString s).mapM CodePoint.toChar? = some s.toList := by
    unfold Text.ofString
    induction s.toList with
    | nil => rfl
    | cons c rest ih => simp [List.mapM_cons, ih, CodePoint.toChar?]
  rw [Text.toString?, hchars, Option.map_some, String.ofList_toList]

@[simp] theorem Text.proper_ofString (s : String) : (Text.ofString s).Proper := by
  rw [← Text.toString?_isSome, Text.toString?_ofString]
  rfl

@[simp] theorem Text.ofString_inj {s s' : String} : Text.ofString s = Text.ofString s' ↔
    s = s' := by
  constructor
  · intro h
    have htext := congrArg Text.toString? h
    simpa using htext
  · rintro rfl
    rfl

theorem Number.value_of_plain {n : Number} (h : n.Plain) :
    n.value = (if n.negative then -1 else 1) * n.whole := by
  obtain ⟨hfraction, hexponent⟩ := h
  simp [Number.value, Number.mantissa, hfraction, hexponent]

theorem plain_of_readable {minimum : Int} (hmin : 0 < minimum) {n : Number}
    (hvalid : (Schema.integer minimum).Valid (.number n)) (hplain : n.Plain) : n.negative =
      false := by
  by_contra hneg
  have hvalue := Number.value_of_plain hplain
  rw [if_pos (by simpa using hneg)] at hvalue
  have hle : (minimum : ℚ) ≤ n.value := hvalid.2
  have hwhole : (0 : ℚ) ≤ n.whole := Nat.cast_nonneg _
  have hpos : (0 : ℚ) < minimum := by exact_mod_cast hmin
  rw [hvalue] at hle
  linarith

/-! ### The readers and their schemas -/

theorem reads_string :
    Reads .string deserializeString fun value s => value = .string (Text.ofString s) := by
  constructor
  · intro value hvalid
    cases value with
    | string text =>
      rw [deserializeString, ← Option.isSome_iff_exists, Text.toString?_isSome]
      exact Iff.rfl
    | _ => exact hvalid.elim
  · intro value s hvalid hread
    cases value with
    | string text => rw [Text.eq_ofString hread]
    | _ => exact hvalid.elim

theorem reads_boolean : Reads .boolean deserializeBool fun value b => value = .bool b := by
  constructor
  · intro value hvalid
    cases value with
    | bool b => exact ⟨fun _ => trivial, fun _ => ⟨b, rfl⟩⟩
    | _ => exact hvalid.elim
  · intro value b hvalid hread
    cases value with
    | bool b' =>
      obtain rfl := Option.some.inj hread
      rfl
    | _ => exact hvalid.elim

theorem reads_integer {minimum : Int} (hmin : 0 < minimum) :
    Reads (.integer minimum) deserializeU32 fun value k =>
      ∃ n, value = .number n ∧ n.value = (k.toNat : ℚ) := by
  constructor
  · intro value hvalid
    cases value with
    | number n =>
      rw [deserializeU32]
      constructor
      · rintro ⟨k, hk⟩
        split at hk
        · rename_i h
          exact ⟨h.1, h.2.2⟩
        · cases hk
      · rintro ⟨hplain, hlt⟩
        rw [if_pos ⟨hplain, plain_of_readable hmin hvalid hplain, hlt⟩]
        exact ⟨_, rfl⟩
    | _ => exact hvalid.elim
  · intro value k hvalid hread
    cases value with
    | number n =>
      rw [deserializeU32] at hread
      split at hread
      · rename_i h
        obtain ⟨hplain, hneg, hlt⟩ := h
        obtain rfl := Option.some.inj hread
        refine ⟨n, rfl, ?_⟩
        rw [Number.value_of_plain hplain, hneg, UInt32.toNat_ofNat_of_lt' hlt]
        simp
      · cases hread
    | _ => exact hvalid.elim

theorem foldl_insertEntry {acc entries : List (String × String)}
    (h : ((acc ++ entries).map Prod.fst).Nodup) : entries.foldl insertEntry acc =
      acc ++ entries := by
  induction entries generalizing acc with
  | nil => simp
  | cons entry rest ih =>
    have hnew : ∀ other ∈ acc, other.1 ≠ entry.1 := by
      intro other hother heq
      rw [List.map_append, List.nodup_append] at h
      exact h.2.2 _ (List.mem_map_of_mem hother) _ (List.mem_map_of_mem List.mem_cons_self) heq
    have hinsert : insertEntry acc entry = acc ++ [entry] := by
      rw [insertEntry, List.filter_eq_self.mpr fun other hother => by simpa using hnew other hother]
    rw [List.foldl_cons, hinsert, ih (by simpa using h), List.append_assoc, List.singleton_append]

/-- The value of a map of strings. -/
def encodeMap (entries : List (String × String)) : Value :=
  .object (entries.map fun entry => (Text.ofString entry.1, .string (Text.ofString entry.2)))

theorem eq_of_deserializeEntry {m : Text × Value} {entry : String × String}
    (h : deserializeEntry m = some entry) :
    m = (Text.ofString entry.1, .string (Text.ofString entry.2)) := by
  obtain ⟨name, value⟩ := m
  unfold deserializeEntry at h
  obtain ⟨key, hkey, h⟩ := Option.bind_eq_some_iff.mp h
  obtain ⟨s, hs, h⟩ := Option.bind_eq_some_iff.mp h
  obtain rfl := Option.some.inj h
  cases value with
  | string text =>
    dsimp only at hkey hs ⊢
    rw [Text.eq_ofString hkey, Text.eq_ofString hs]
  | _ => cases hs

theorem deserializeEntry_isSome {m : Text × Value} (hvalid : Schema.string.Valid m.2) :
    (deserializeEntry m).isSome ↔ m.1.Proper ∧ Schema.string.Readable m.2 := by
  obtain ⟨name, value⟩ := m
  cases value with
  | string text =>
    rw [← Text.toString?_isSome, Schema.Readable, ← Text.toString?_isSome]
    simp only [deserializeEntry, deserializeString]
    cases name.toString? <;> cases text.toString? <;> simp
  | _ => exact hvalid.elim

theorem mapM_deserializeEntry {members : List (Text × Value)}
    (hvalid : ∀ m ∈ members, Schema.string.Valid m.2) :
    (members.mapM deserializeEntry).isSome ↔
      ∀ m ∈ members, m.1.Proper ∧ Schema.string.Readable m.2 := by
  induction members with
  | nil => simp
  | cons m rest ih =>
    rw [List.forall_mem_cons] at hvalid ⊢
    rw [← ih hvalid.2, ← deserializeEntry_isSome hvalid.1, List.mapM_cons]
    cases deserializeEntry m <;> cases rest.mapM deserializeEntry <;> simp

theorem eq_of_mapM_deserializeEntry {members : List (Text × Value)}
    {entries : List (String × String)} (h : members.mapM deserializeEntry = some entries) :
    members = entries.map fun entry =>
      (Text.ofString entry.1, .string (Text.ofString entry.2)) := by
  induction members generalizing entries with
  | nil =>
    obtain rfl : [] = entries := by simpa using h
    rfl
  | cons m rest ih =>
    rw [List.mapM_cons] at h
    obtain ⟨entry, hentry, h⟩ := Option.bind_eq_some_iff.mp h
    obtain ⟨tail, htail, h⟩ := Option.bind_eq_some_iff.mp h
    obtain rfl := Option.some.inj h
    rw [List.map_cons, ← ih htail, ← eq_of_deserializeEntry hentry]

/-- Names that are different stay so as strings, and the map keeps every entry. -/
theorem reads_mapOf : Reads (.mapOf .string) deserializeMap fun value env => value =
    encodeMap env := by
  constructor
  · intro value hvalid
    cases value with
    | object members =>
      rw [deserializeMap, ← Option.isSome_iff_exists, Option.isSome_map,
        mapM_deserializeEntry hvalid.2]
      exact Iff.rfl
    | _ => exact hvalid.elim
  · intro value env hvalid hread
    cases value with
    | object members =>
      obtain ⟨entries, hentries, rfl⟩ := Option.map_eq_some_iff.mp hread
      have hmembers := eq_of_mapM_deserializeEntry hentries
      have hkeys : (([] ++ entries).map Prod.fst).Nodup := by
        have hunique : (members.map Prod.fst).Nodup := hvalid.1
        rw [hmembers, List.map_map] at hunique
        rw [List.nil_append]
        refine List.Nodup.of_map Text.ofString ?_
        rwa [List.map_map]
      rw [foldl_insertEntry hkeys, encodeMap, List.nil_append, ← hmembers]
    | _ => exact hvalid.elim

/-! ### The fields of a struct -/

section

variable {members : List (Text × Value)} {name : String} {α : Type}

theorem lookup_eq_some (hunique : UniqueNames members) {value : Value} :
    members.lookup (Text.ofString name) = some value ↔ Given members name value := by
  unfold Given
  unfold UniqueNames at hunique
  induction members with
  | nil => simp
  | cons m rest ih =>
    obtain ⟨text, other⟩ := m
    rw [List.map_cons, List.nodup_cons] at hunique
    rw [List.lookup_cons, List.mem_cons, ← ih hunique.2]
    by_cases heq : Text.ofString name = text
    · subst heq
      have hnot : Given rest name value → False := fun h =>
        hunique.1 (List.mem_map.mpr ⟨_, h, rfl⟩)
      simp only [beq_self_eq_true, Option.some.injEq, Prod.mk.injEq, true_and]
      constructor
      · rintro rfl
        exact Or.inl rfl
      · rintro (rfl | h)
        · rfl
        · exact (hnot ((ih hunique.2).mp h)).elim
    · have hbeq : (Text.ofString name == text) = false := by simpa using heq
      simp [hbeq, heq]

theorem lookup_eq_none (hunique : UniqueNames members) :
    members.lookup (Text.ofString name) = none ↔ Absent members name := by
  rw [Option.eq_none_iff_forall_ne_some]
  exact forall_congr' fun value => not_congr (lookup_eq_some hunique)

/-- An object whose names are different and proper has its fields found. -/
theorem structFields_object (names : List String) (hunique : UniqueNames members) :
    structFields names (.object members) =
      if members.all (fun m => m.1.toString?.isSome) then
        some fun name => members.lookup (Text.ofString name)
      else none := by
  have hcount : ∀ name ∈ names, (members.map Prod.fst).count (Text.ofString name) ≤ 1 :=
    fun name _ => List.nodup_iff_count.mp hunique _
  exact if_congr (and_iff_left hcount) rfl rfl

/-- What a struct holds of a field with a default. -/
def Carried (members : List (Text × Value)) (name : String) (default : α) (means : Value → α → Prop)
    (x : α) : Prop :=
  (Absent members name → x = default) ∧ ∀ value, Given members name value → means value x

variable {schema : Schema} {read : Value → Option α} {means : Value → α → Prop}

theorem Reads.optional (h : Reads schema read means) (hunique : UniqueNames members)
    (hvalid : ∀ value, Given members name value → schema.Valid value) (default : α) :
    ((∃ x, Json.optional default read (members.lookup (Text.ofString name)) = some x) ↔
      ∀ value, Given members name value → schema.Readable value) ∧
    ∀ x, Json.optional default read (members.lookup (Text.ofString name)) = some x →
      Carried members name default means x := by
  rcases hlookup : members.lookup (Text.ofString name) with _ | value
  · have habsent := (lookup_eq_none hunique).mp hlookup
    refine ⟨⟨fun _ value hgiven => absurd hgiven (habsent value), fun _ => ⟨default, rfl⟩⟩, ?_⟩
    intro x hx
    obtain rfl := Option.some.inj hx
    exact ⟨fun _ => rfl, fun value hgiven => absurd hgiven (habsent value)⟩
  · have hgiven := (lookup_eq_some hunique).mp hlookup
    have honly : ∀ other, Given members name other → other = value := by
      intro other hother
      rw [← lookup_eq_some hunique, hlookup] at hother
      exact (Option.some.inj hother).symm
    constructor
    · refine (h.takes value (hvalid value hgiven)).trans
        ⟨fun hreadable other hother => ?_, fun hall => ?_⟩
      · rwa [honly other hother]
      · exact hall value hgiven
    · intro x hx
      refine ⟨fun habsent => absurd hgiven (habsent value), fun other hother => ?_⟩
      rw [honly other hother]
      exact h.keeps value x (hvalid value hgiven) hx

theorem Reads.required (h : Reads schema read means) (hunique : UniqueNames members)
    (hvalid : ∀ value, Given members name value → schema.Valid value)
    (hgiven : ∃ value, Given members name value) :
    ((∃ x, Json.required read (members.lookup (Text.ofString name)) = some x) ↔
      ∀ value, Given members name value → schema.Readable value) ∧
    ∀ x, Json.required read (members.lookup (Text.ofString name)) = some x →
      ∀ value, Given members name value → means value x := by
  obtain ⟨value, hgiven⟩ := hgiven
  have hlookup := (lookup_eq_some hunique).mpr hgiven
  have honly : ∀ other, Given members name other → other = value := by
    intro other hother
    rw [← lookup_eq_some hunique, hlookup] at hother
    exact (Option.some.inj hother).symm
  rw [hlookup, Json.required, Option.bind_some]
  constructor
  · refine (h.takes value (hvalid value hgiven)).trans
      ⟨fun hreadable other hother => ?_, fun hall => ?_⟩
    · rwa [honly other hother]
    · exact hall value hgiven
  · intro x hx other hother
    rw [honly other hother]
    exact h.keeps value x (hvalid value hgiven) hx

end

end Json
