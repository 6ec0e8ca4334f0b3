import Classmith.Json.Decode
import Classmith.Proofs.Numerals

/-!
# Decoding what was written

A decoder reads a tree as a value if the tree is whole and the decoder's answer is that value. Each way
to combine decoders has its rule, so that the decoder of a record is known from those of its fields.
-/
namespace Classmith.Json

open Number (Numeral)

/-! ## Trees without defects -/

/-- A tree without defects, with numbers in range whose fractions are spelled in decimal digits. -/
inductive Sound : Json → Prop
  | null : Sound .null
  | bool (b : Bool) : Sound (.bool b)
  | string (s : String) : Sound (.string s)
  | number {n : Numeral} (range : n.double?.isSome) (digits : ∀ d ∈ n.fraction, d < 10) :
    Sound (.number n)
  | object {members : List (Option String × Json)} (keys : ∀ m ∈ members, m.1.isSome)
    (values : ∀ m ∈ members, Sound m.2) : Sound (.object members)
  | array {items : List Json} (items_sound : ∀ i ∈ items, Sound i) : Sound (.array items)

theorem membersReadable_of_forall {members : List (Option String × Json)}
    (h : ∀ m ∈ members, m.1.isSome ∧ m.2.readable) : membersReadable members := by
  induction members with
  | nil => rfl
  | cons m rest ih =>
    obtain ⟨⟨hkey, hvalue⟩, hrest⟩ := List.forall_mem_cons.mp h
    simp only [membersReadable, hkey, hvalue, ih hrest, Bool.and_self]

theorem itemsReadable_of_forall {items : List Json} (h : ∀ i ∈ items, i.readable) :
    itemsReadable items := by
  induction items with
  | nil => rfl
  | cons item rest ih =>
    obtain ⟨hitem, hrest⟩ := List.forall_mem_cons.mp h
    simp only [itemsReadable, hitem, ih hrest, Bool.and_self]

theorem Sound.readable {j : Json} (h : j.Sound) : j.readable := by
  induction h with
  | null => rfl
  | bool b => rfl
  | string s => rfl
  | number range _ => exact range
  | object keys _ ih => exact membersReadable_of_forall fun m hm => ⟨keys m hm, ih m hm⟩
  | array _ ih => exact itemsReadable_of_forall ih

theorem Sound.record {members : List (String × Json)} (h : ∀ m ∈ members, m.2.Sound) :
    (Json.record members).Sound := by
  refine .object (fun m hm => ?_) (fun m hm => ?_)
  · obtain ⟨pair, _, rfl⟩ := List.mem_map.mp hm
    rfl
  · obtain ⟨pair, hpair, rfl⟩ := List.mem_map.mp hm
    exact h pair hpair

/-! ## Nesting -/

mutual

/-- How deep arrays and objects are nested. -/
def depth : Json → Nat
  | .object members => membersDepth members + 1
  | .array items => itemsDepth items + 1
  | .deep content => depth content + 1
  | _ => 0

def membersDepth : List (Option String × Json) → Nat
  | [] => 0
  | (_, value) :: rest => max (depth value) (membersDepth rest)

def itemsDepth : List Json → Nat
  | [] => 0
  | item :: rest => max (depth item) (itemsDepth rest)

end

theorem depth_lt_of_mem_items {items : List Json} {i : Json} (h : i ∈ items) :
    i.depth < (Json.array items).depth := by
  rw [depth]
  induction items with
  | nil => cases h
  | cons item rest ih =>
    rw [itemsDepth]
    rcases List.mem_cons.mp h with rfl | h
    · omega
    · have hrest := ih h
      omega

theorem depth_lt_of_mem_members {members : List (Option String × Json)} {m : Option String × Json}
    (h : m ∈ members) : m.2.depth < (Json.object members).depth := by
  rw [depth]
  induction members with
  | nil => cases h
  | cons first rest ih =>
    rw [membersDepth]
    rcases List.mem_cons.mp h with rfl | h
    · omega
    · have hrest := ih h
      omega

theorem depth_lt_of_mem_record {members : List (String × Json)} {key : String} {value : Json}
    (h : (key, value) ∈ members) : value.depth < (Json.record members).depth := by
  rw [record]
  exact depth_lt_of_mem_members (m := (some key, value)) (List.mem_map.mpr ⟨(key, value), h, rfl⟩)

/-! ## Decoders -/

variable {α β : Type}

/-- The tree is whole, and the decoder reads it as the value. -/
structure Decodes (d : Decoder α) (j : Json) (a : α) : Prop where
  sound : j.Sound
  decoded : d j = .ok a

namespace Decoder

theorem decodes_map {d : Decoder α} {j : Json} {a : α} (h : Decodes d j a) (f : α → β) :
    Decodes (d.map f) j (f a) where
  sound := h.sound
  decoded := by rw [map, h.decoded]; rfl

theorem decodes_text (s : String) : Decodes text (.string s) s := ⟨.string s, rfl⟩

theorem decodes_flag (b : Bool) : Decodes flag (.bool b) b := ⟨.bool b, rfl⟩

theorem decodes_none (d : Decoder α) : Decodes (option d) .null none := ⟨.null, rfl⟩

theorem decodes_some {d : Decoder α} {j : Json} {a : α} (h : Decodes d j a) (hj : j ≠ .null) :
    Decodes (option d) j (some a) where
  sound := h.sound
  decoded := by
    have hvalue : option d j = (d j).map some := by
      cases j <;> first | rfl | exact absurd rfl hj
    rw [hvalue, h.decoded]
    rfl

theorem decodes_optional {d : Decoder α} {encode : α → Json} {o : Option α}
    (h : ∀ a, o = some a → Decodes d (encode a) a) (hnull : ∀ a, encode a ≠ .null) :
    Decodes (option d) (optional encode o) o := by
  cases o with
  | none => exact decodes_none d
  | some a => exact decodes_some (h a rfl) (hnull a)

theorem items_map {d : Decoder α} {encode : α → Json} {l : List α}
    (h : ∀ a ∈ l, d (encode a) = .ok a) (index : Nat) : items d index (l.map encode) = .ok l := by
  induction l generalizing index with
  | nil => rfl
  | cons a rest ih =>
    obtain ⟨hfirst, hrest⟩ := List.forall_mem_cons.mp h
    rw [List.map_cons, items, hfirst, ih hrest]
    rfl

theorem decodes_list {d : Decoder α} {encode : α → Json} {l : List α}
    (h : ∀ a ∈ l, Decodes d (encode a) a) : Decodes (list d) (.array (l.map encode)) l where
  sound := by
    refine .array fun i hi => ?_
    obtain ⟨a, ha, rfl⟩ := List.mem_map.mp hi
    exact (h a ha).sound
  decoded := items_map (fun a ha => (h a ha).decoded) 0

/-! ## Integers -/

/-- An integer of 64 bits, signed or not, is read as itself within bounds that it meets. -/
theorem decodes_integer {low high n : Int} (hlow : low ≤ n) (hhigh : n ≤ high)
    (hword : -0x8000000000000000 ≤ low ∧ high ≤ 0xFFFFFFFFFFFFFFFF) :
    Decodes (integer low high) (Json.int n) n := by
  have hvalue : (Numeral.ofInt n).word? = some n := Numeral.word?_ofInt (by omega) (by omega)
  refine ⟨.number ?_ (by simp [Numeral.ofInt]), ?_⟩
  · rw [Numeral.double?, hvalue]
    rfl
  · rw [Json.int, integer, hvalue]
    simp only [hlow, hhigh, and_self, if_true]

theorem decodes_unsigned (n : Nat) (high : Int) (hhigh : n ≤ high)
    (hword : high ≤ 0xFFFFFFFFFFFFFFFF) (f : Nat → α) :
    Decodes ((integer 0 high).map fun i => f i.toNat) (nat n) (f n) :=
  decodes_map (decodes_integer (by omega) hhigh ⟨by decide, hword⟩) fun i => f i.toNat

theorem decodes_uint8 (x : UInt8) : Decodes uint8 (nat x.toNat) x := by
  have hbound := x.toNat_lt
  have h := decodes_unsigned x.toNat 0xFF (by omega) (by decide) UInt8.ofNat
  rwa [UInt8.ofNat_toNat] at h

theorem decodes_uint16 (x : UInt16) : Decodes uint16 (nat x.toNat) x := by
  have hbound := x.toNat_lt
  have h := decodes_unsigned x.toNat 0xFFFF (by omega) (by decide) UInt16.ofNat
  rwa [UInt16.ofNat_toNat] at h

theorem decodes_uint32 (x : UInt32) : Decodes uint32 (nat x.toNat) x := by
  have hbound := x.toNat_lt
  have h := decodes_unsigned x.toNat 0xFFFFFFFF (by omega) (by decide) UInt32.ofNat
  rwa [UInt32.ofNat_toNat] at h

theorem decodes_uint64 (x : UInt64) : Decodes uint64 (nat x.toNat) x := by
  have hbound := x.toNat_lt
  have h := decodes_unsigned x.toNat 0xFFFFFFFFFFFFFFFF (by omega) (by decide)
    UInt64.ofNat
  rwa [UInt64.ofNat_toNat] at h

theorem decodes_int8 (x : Int8) : Decodes int8 (Json.int x.toInt) x := by
  have h := decodes_map (decodes_integer x.le_toInt x.toInt_le (by decide)) Int8.ofInt
  rwa [Int8.ofInt_toInt] at h

theorem decodes_int16 (x : Int16) : Decodes int16 (Json.int x.toInt) x := by
  have h := decodes_map (decodes_integer x.le_toInt x.toInt_le (by decide)) Int16.ofInt
  rwa [Int16.ofInt_toInt] at h

theorem decodes_int32 (x : Int32) : Decodes int32 (Json.int x.toInt) x := by
  have h := decodes_map (decodes_integer x.le_toInt x.toInt_le (by decide)) Int32.ofInt
  rwa [Int32.ofInt_toInt] at h

theorem decodes_int64 (x : Int64) : Decodes int64 (Json.int x.toInt) x := by
  have h := decodes_map (decodes_integer x.le_toInt x.toInt_le (by decide)) Int64.ofInt
  rwa [Int64.ofInt_toInt] at h

/-! ## Numbers with a fraction -/

theorem decodes_single {n : Numeral} {x : Number.Single} (h : n.single? = some x)
    (hdigits : ∀ d ∈ n.fraction, d < 10) : Decodes single (.number n) x where
  sound := .number (Numeral.double?_isSome_of_single? h) hdigits
  decoded := by rw [single, h]

theorem decodes_double {n : Numeral} {x : Number.Double} (h : n.double? = some x)
    (hdigits : ∀ d ∈ n.fraction, d < 10) : Decodes double (.number n) x where
  sound := .number (by rw [h]; rfl) hdigits
  decoded := by rw [double, h]

/-! ## Records -/

/-- Members in the order of the fields, each read by its field, turn the first record into the
second. -/
inductive Fills : List (Entry α) → List (String × Json) → α → α → Prop
  | nil (a : α) : Fills [] [] a a
  | cons {e : Entry α} {entries : List (Entry α)} {value : Json}
    {members : List (String × Json)} {set : α → α} {a b : α} (sound : value.Sound)
    (read : e.read value = .ok set) (rest : Fills entries members (set a) b) :
    Fills (e :: entries) ((e.name, value) :: members) a b

section

variable {entries : List (Entry α)} {given : List (String × Json)} {a b : α}

theorem Fills.required {name : String} {d : Decoder β} {set : β → α → α} {value : Json} {x : β}
    (h : Decodes d value x) (rest : Fills entries given (set x a) b) :
    Fills (Decoder.required name d set :: entries) ((name, value) :: given) a b :=
  .cons h.sound (decodes_map h set).decoded rest

theorem Fills.defaulted {name : String} {d : Decoder β} {set : β → α → α} {value : Json} {x : β}
    (h : Decodes d value x) (rest : Fills entries given (set x a) b) :
    Fills (Decoder.defaulted name d set :: entries) ((name, value) :: given) a b :=
  .cons h.sound (decodes_map h set).decoded rest

theorem Fills.sound (h : Fills entries given a b) : ∀ m ∈ given, m.2.Sound := by
  induction h with
  | nil a => simp
  | cons sound _ _ ih => exact List.forall_mem_cons.mpr ⟨sound, ih⟩

theorem Fills.keys (h : Fills entries given a b) : given.map (·.1) = entries.map Entry.name := by
  induction h with
  | nil a => rfl
  | cons _ _ _ ih => rw [List.map_cons, List.map_cons, ih]

theorem find?_name {done rest : List (Entry α)} {e : Entry α}
    (h : ((done ++ e :: rest).map Entry.name).Nodup) :
    (done ++ e :: rest).find? (fun other => other.name = e.name) = some e := by
  rw [List.find?_append]
  have hnone : done.find? (fun other => other.name = e.name) = none := by
    rw [List.find?_eq_none]
    intro other hother hsame
    rw [List.map_append, List.nodup_append] at h
    exact h.2.2 _ (List.mem_map_of_mem hother) _ (List.mem_map_of_mem List.mem_cons_self)
      (of_decide_eq_true hsame)
  simp [hnone]

/-- Some fields have been read; the others are filled in their order. -/
theorem members_of_fills (h : Fills entries given a b) (done : List (Entry α)) {seen : List String}
    (hnames : ((done ++ entries).map Entry.name).Nodup)
    (hseen : ∀ name, name ∈ seen ↔ name ∈ done.map Entry.name) :
    members (done ++ entries) seen (given.map fun (key, value) => (some key, value)) a = .ok b := by
  induction h generalizing done seen with
  | nil a =>
    have hall : (done ++ []).any (fun e => e.required && !seen.contains e.name) = false := by
      rw [List.append_nil, List.any_eq_false]
      intro e he
      have hmem : e.name ∈ seen := (hseen _).mpr (List.mem_map_of_mem he)
      simp [hmem]
    rw [List.map_nil, members, hall]
    rfl
  | cons sound read rest ih =>
    rename_i e entries value given set a b
    -- the names differ, so the member is found at its own field and was not seen before
    have hnew : seen.contains e.name = false := by
      have hout : e.name ∉ seen := by
        intro hmem
        rw [List.map_append, List.nodup_append] at hnames
        exact hnames.2.2 _ ((hseen _).mp hmem) _ (List.mem_map_of_mem List.mem_cons_self) rfl
      simpa using hout
    have hnext : (done ++ [e]) ++ entries = done ++ e :: entries := by simp
    have hread : ∀ name, name ∈ e.name :: seen ↔ name ∈ (done ++ [e]).map Entry.name := by
      intro name
      rw [List.mem_cons, hseen, List.map_append, List.mem_append, or_comm]
      simp
    have hrest := ih (done ++ [e]) (by rwa [hnext]) hread
    rw [hnext] at hrest
    simp only [List.map_cons, members, find?_name hnames, hnew, read, within]
    exact hrest

theorem decodes_record (hnames : (entries.map Entry.name).Nodup) (h : Fills entries given a b) :
    Decodes (Decoder.record entries a) (Json.record given) b where
  sound := .record h.sound
  decoded := members_of_fills h [] hnames (by simp)

end

/-! ## Choices -/

theorem decodes_variant {cases : List (String × Decoder α)} {name : String} {d : Decoder α}
    {content : Json} {a : α} (hcase : cases.lookup name = some d) (h : Decodes d content a) :
    Decodes (variant cases) (Json.record [(name, content)]) a where
  sound := .record (by simpa using h.sound)
  decoded := by
    have hmembers : Json.record [(name, content)] = .object [(some name, content)] := rfl
    simp only [hmembers, variant, hcase, h.decoded, within]
    rfl

end Decoder

end Classmith.Json
