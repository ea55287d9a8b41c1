/-! Texts as a system holds them, which are bytes.

Paths, the names in a directory and the targets of links are any bytes. Most are the
bytes of a text (`ofString`), but a name may have bytes that are no part of a character.
`decode` goes through the bytes from character to character; where none starts it loses
the longest start of one, or else a single byte. What is decoded without a loss is the
text of the bytes (`text?_eq_some_iff`). What is lost is shown as a replacement
character, and a text is shown as it is (`shown_ofString`).

A character below 128 is one byte, which no other character has among its own
(`Text.utf8EncodeChar_cases`), so that slashes, dots and blanks may be looked for in
the bytes. -/
namespace DocOutline

/-! ### Bytes of a text -/

/-- The bytes of some characters. -/
def Text.bytes (s : List Char) : List UInt8 := s.flatMap String.utf8EncodeChar

/-- A character below 128 is one byte, and every byte of another character is 128 or more. -/
theorem Text.utf8EncodeChar_cases (c : Char) :
    (c.toNat < 128 ∧ String.utf8EncodeChar c = [UInt8.ofNat c.toNat]) ∨
      (128 ≤ c.toNat ∧ ∀ b ∈ String.utf8EncodeChar c, 128 ≤ b) := by
  have hbyte (n : Nat) (h : 128 ≤ n) (hlt : n < 256) : 128 ≤ UInt8.ofNat n := by
    rw [UInt8.le_iff_toNat_le, UInt8.toNat_ofNat', Nat.mod_eq_of_lt hlt]
    exact h
  have hval : c.val.toNat = c.toNat := rfl
  rw [String.utf8EncodeChar.eq_1, hval]
  split
  next h => exact .inl ⟨Nat.lt_succ_of_le h, rfl⟩
  next h =>
    refine .inr ⟨Nat.lt_of_not_le h, ?_⟩
    have hlast := List.forall_mem_cons.2 ⟨hbyte (c.toNat % 64 + 128) (by omega) (by omega),
      List.forall_mem_nil _⟩
    have hthird := List.forall_mem_cons.2 ⟨hbyte (c.toNat / 64 % 64 + 128) (by omega) (by omega),
      hlast⟩
    split
    · exact List.forall_mem_cons.2 ⟨hbyte _ (by omega) (by omega), hlast⟩
    split
    · exact List.forall_mem_cons.2 ⟨hbyte _ (by omega) (by omega), hthird⟩
    · have hsecond := List.forall_mem_cons.2
        ⟨hbyte (c.toNat / 4096 % 64 + 128) (by omega) (by omega), hthird⟩
      exact List.forall_mem_cons.2 ⟨hbyte _ (by omega) (by omega), hsecond⟩

/-- A byte that is a character stands in the bytes of a text only for itself. -/
theorem Text.ofNat_mem_bytes_iff {c : Char} (hc : c.toNat < 128) {s : List Char} :
    UInt8.ofNat c.toNat ∈ bytes s ↔ c ∈ s := by
  rw [bytes, List.mem_flatMap]
  constructor
  · rintro ⟨d, hd, hmem⟩
    have htoNat : (UInt8.ofNat c.toNat).toNat = c.toNat := by
      rw [UInt8.toNat_ofNat', Nat.mod_eq_of_lt (by omega)]
    rcases utf8EncodeChar_cases d with ⟨hlt, hbytes⟩ | ⟨-, hbytes⟩
    · rw [hbytes, List.mem_singleton] at hmem
      have heq := congrArg UInt8.toNat hmem
      rw [htoNat, UInt8.toNat_ofNat', Nat.mod_eq_of_lt (by omega)] at heq
      exact Char.toNat_inj.1 heq ▸ hd
    · have hle := UInt8.le_iff_toNat_le.1 (hbytes _ hmem)
      rw [htoNat] at hle
      exact absurd hle (Nat.not_le.2 hc)
  · intro hmem
    refine ⟨c, hmem, ?_⟩
    rcases utf8EncodeChar_cases c with ⟨-, hbytes⟩ | ⟨hle, -⟩
    · rw [hbytes]
      exact List.mem_singleton.2 rfl
    · exact absurd hle (Nat.not_le.2 hc)

/-! ### Raw texts -/

/-- A path, a name or the target of a link. -/
structure RawText where
  bytes : List UInt8
  deriving DecidableEq, Repr, Inhabited

namespace RawText

def ofString (text : String) : RawText := ⟨Text.bytes text.toList⟩

instance : Coe String RawText := ⟨ofString⟩

theorem bytes_ofString_append (a b : String) :
    (ofString (a ++ b)).bytes = (ofString a).bytes ++ (ofString b).bytes := by
  simp [ofString, Text.bytes]

/-! ### Decoding -/

/-- Between which bytes the second one of a character lies that has three or more. -/
def secondBounds (lead : UInt8) : UInt8 × UInt8 :=
  if lead = 0xE0 then (0xA0, 0xBF)
  else if lead = 0xED then (0x80, 0x9F)
  else if lead = 0xF0 then (0x90, 0xBF)
  else if lead = 0xF4 then (0x80, 0x8F)
  else (0x80, 0xBF)

/-- How many bytes after `lead` are lost with it, where no character starts: those that
one could have there. -/
def lost (lead : UInt8) (rest : List UInt8) : Nat :=
  if lead < 0xE0 || 0xF4 < lead then 0
  else
    let (low, high) := secondBounds lead
    match rest with
    | [] => 0
    | second :: rest =>
      if second < low || high < second then 0
      else if lead < 0xF0 then 1
      else if rest.head?.any fun third => 0x80 ≤ third && third ≤ 0xBF then 2
      else 1

/-- The characters of some bytes after the next `skip`, and nothing for each loss. -/
def decodeFrom : Nat → List UInt8 → List (Option Char)
  | _, [] => []
  | skip + 1, _ :: rest => decodeFrom skip rest
  | 0, lead :: rest =>
    match (lead :: rest).toByteArray.utf8DecodeChar? 0 with
    | some c => some c :: decodeFrom (c.utf8Size - 1) rest
    | none => none :: decodeFrom (lost lead rest) rest

def decode (r : RawText) : List (Option Char) := decodeFrom 0 r.bytes

/-- The text that is shown: its characters, and a replacement for each loss. -/
def shown (r : RawText) : String := String.ofList (r.decode.map fun c? => c?.getD '\uFFFD')

/-- The text of the bytes, if they are those of one. -/
def text? (r : RawText) : Option String := if r.decode.all Option.isSome then some r.shown else none

/-- Many raw texts may be given as texts. -/
instance : Coe (List String) (List RawText) := ⟨List.map ofString⟩

/-- Where texts are asked for, raw texts are shown. -/
instance : Coe (List RawText) (List String) := ⟨List.map shown⟩

/-! ### Texts decoded -/

theorem decodeFrom_cons_of_some {lead : UInt8} {rest : List UInt8} {c : Char}
    (h : (lead :: rest).toByteArray.utf8DecodeChar? 0 = some c) :
    decodeFrom 0 (lead :: rest) = some c :: decodeFrom (c.utf8Size - 1) rest := by
  rw [decodeFrom, h]

theorem decodeFrom_append (skipped rest : List UInt8) :
    decodeFrom skipped.length (skipped ++ rest) = decodeFrom 0 rest := by
  induction skipped with
  | nil => rfl
  | cons b skipped ih => exact ih

/-- The bytes of a character decode to it. -/
theorem decodeFrom_utf8EncodeChar_append (c : Char) (rest : List UInt8) :
    decodeFrom 0 (String.utf8EncodeChar c ++ rest) = some c :: decodeFrom 0 rest := by
  have hfirst : (String.utf8EncodeChar c ++ rest).toByteArray.utf8DecodeChar? 0 = some c := by
    rw [List.toByteArray_append]
    exact ByteArray.utf8DecodeChar?_utf8EncodeChar_append
  have hlength := String.length_utf8EncodeChar c
  have hpos := c.utf8Size_pos
  cases hbytes : String.utf8EncodeChar c with
  | nil =>
    rw [hbytes, List.length_nil] at hlength
    omega
  | cons lead more =>
    rw [hbytes, List.cons_append] at hfirst
    rw [hbytes, List.length_cons] at hlength
    rw [List.cons_append, decodeFrom_cons_of_some hfirst, ← hlength, Nat.add_sub_cancel,
      decodeFrom_append]

/-- Bytes whose first part decodes to a character start with its bytes. -/
theorem exists_append_of_decodeFrom {bytes : List UInt8} {c : Char} {more : List (Option Char)}
    (h : decodeFrom 0 bytes = some c :: more) :
    ∃ rest, bytes = String.utf8EncodeChar c ++ rest ∧ decodeFrom 0 rest = more := by
  cases bytes with
  | nil => cases h
  | cons lead rest =>
    cases hfirst : (lead :: rest).toByteArray.utf8DecodeChar? 0 with
    | none =>
      rw [decodeFrom, hfirst] at h
      cases h
    | some d =>
      obtain ⟨after, hafter⟩ := ByteArray.exists_of_utf8DecodeChar?_eq_some hfirst
      have hbytes : lead :: rest = String.utf8EncodeChar d ++ after.data.toList := by
        have hdata := congrArg (fun b : ByteArray => b.data.toList) hafter
        simpa using hdata
      have hcd : decodeFrom 0 (lead :: rest) = some d :: decodeFrom 0 after.data.toList := by
        rw [hbytes, decodeFrom_utf8EncodeChar_append]
      rw [hcd] at h
      obtain ⟨hd, hmore⟩ := List.cons.inj h
      obtain rfl := Option.some.inj hd
      exact ⟨_, hbytes, hmore⟩

/-- Bytes decode to characters without a loss exactly if they are the bytes of these. -/
theorem decodeFrom_eq_map_some_iff {bytes : List UInt8} {s : List Char} :
    decodeFrom 0 bytes = s.map some ↔ bytes = Text.bytes s := by
  constructor
  · intro h
    induction s generalizing bytes with
    | nil =>
      cases bytes with
      | nil => rfl
      | cons lead rest =>
        rw [decodeFrom] at h
        split at h <;> cases h
    | cons c s ih =>
      obtain ⟨rest, rfl, hrest⟩ := exists_append_of_decodeFrom h
      rw [ih hrest]
      rfl
  · rintro rfl
    induction s with
    | nil => rfl
    | cons c s ih =>
      have hcons : Text.bytes (c :: s) = String.utf8EncodeChar c ++ Text.bytes s := rfl
      rw [hcons, decodeFrom_utf8EncodeChar_append, ih, List.map_cons]

/-- A text is shown as it is. -/
@[simp] theorem shown_ofString (text : String) : (ofString text).shown = text := by
  have hdecode : (ofString text).decode = text.toList.map some := decodeFrom_eq_map_some_iff.2 rfl
  simp [shown, hdecode, Function.comp_def]

/-- The bytes that have a text are its bytes. -/
theorem text?_eq_some_iff {r : RawText} {text : String} :
    r.text? = some text ↔ r = ofString text := by
  constructor
  · intro h
    unfold text? at h
    split at h
    · rename_i hall
      have hdecode : r.decode = (r.decode.map fun c? => c?.getD '\uFFFD').map some := by
        rw [List.map_map]
        refine (List.map_id _).symm.trans (List.map_congr_left fun c? hc => ?_)
        obtain ⟨c, rfl⟩ := Option.isSome_iff_exists.1 (List.all_eq_true.1 hall c? hc)
        rfl
      have hbytes := decodeFrom_eq_map_some_iff.1 hdecode
      rw [← Option.some.inj h, shown, ofString, String.toList_ofList, ← hbytes]
    · cases h
  · rintro rfl
    have hdecode : (ofString text).decode = text.toList.map some := decodeFrom_eq_map_some_iff.2 rfl
    rw [text?, if_pos (by simp [hdecode]), shown_ofString]

@[simp] theorem text?_ofString (text : String) : (ofString text).text? = some text :=
  text?_eq_some_iff.2 rfl

end RawText

end DocOutline
