import MnoVerify.JsonSound
import MnoVerify.OracleLeaves

/-!
# What the shared hashes read

The texts that `contextHash` and `signalHash` of `common/index.js` and the purpose tags of `common/purpose_tags.js` give to
`hashToField`. No two calls hash the same bytes (`preimage_inj`): the prefixes of the functions differ, and a version cannot
take in the start of the fields after it, because the quotes of a JSON text are counted from any colon on (`quotes_colon`).
-/

namespace HashPreimages

/-- `BigInt("0x" + digest) % FIELD_PRIME` -/
def hashToField (sha256 : List UInt8 → List UInt8) (s : List Char) : Nat :=
  OracleLeaves.bigEndian (sha256 (Utf8.encode s)) % Field.FIELD_PRIME

/-- `JSON.stringify` of an array of strings. -/
def tuple (fields : List String) : List Char := (Json.arr (fields.map .str)).stringify

inductive PurposeLabel
  | singleTierAdmission
  | seasonalRegistration
deriving DecidableEq

def PURPOSE_LABELS : PurposeLabel → String
  | .singleTierAdmission => "dash-mno-verify:purpose:single-tier-admission:v1"
  | .seasonalRegistration => "dash-mno-verify:purpose:seasonal-registration:v1"

/-- A call of one of the functions with its arguments. -/
inductive Call
  | contextHash (platform communityId roleId version : String)
  | signalHash (nonce account : String)
  | purposeTag (label : PurposeLabel)
deriving DecidableEq

/-- The argument of `hashToField`. -/
def Call.text : Call → List Char
  | .contextHash platform communityId roleId version =>
    "dash-mno-verify:context:".toList ++ version.toList ++ ':' :: tuple [platform, communityId, roleId]
  | .signalHash nonce account => "dash-mno-verify:signal:v2:".toList ++ tuple [nonce, account]
  | .purposeTag label => (PURPOSE_LABELS label).toList

def Call.preimage (c : Call) : List UInt8 := Utf8.encode c.text

def Call.result (sha256 : List UInt8 → List UInt8) (c : Call) : Nat := hashToField sha256 c.text

/-! ## The quotes of a text -/

/-- How many quotes no backslash escapes; the flag says that one stands before the text. -/
def quotes : Bool → List Char → Nat
  | _, [] => 0
  | true, _ :: s => quotes false s
  | false, c :: s => if c = '"' then quotes false s + 1 else quotes (decide (c = '\\')) s

/-- A colon ends every escape. -/
theorem quotes_colon (t : List Char) : ∀ (esc : Bool) (s : List Char), quotes esc (s ++ ':' :: t) = quotes esc s + quotes false t
  | true, [] => by rw [List.nil_append, quotes, quotes, Nat.zero_add]
  | false, [] => by simp [quotes]
  | true, c :: s => by rw [List.cons_append, quotes, quotes, quotes_colon t false s]
  | false, c :: s => by
    rw [List.cons_append, quotes, quotes]
    split
    · rw [quotes_colon t false s]
      omega
    · rw [quotes_colon t _ s]

theorem quotes_escape (c : Char) (t : List Char) : quotes false (Json.escape c ++ t) = quotes false t := by
  unfold Json.escape
  split
  · rfl
  split
  · rfl
  split
  · rfl
  split
  · rfl
  split
  · rfl
  split
  · rfl
  split
  · rfl
  rename_i hq hb _ _ _ _ _
  split
  · rename_i h32
    have hx : ∀ n < 16, Json.hexDigit n ≠ '"' ∧ Json.hexDigit n ≠ '\\' := by decide
    have h1 := hx (c.toNat / 16) (by omega)
    have h2 := hx (c.toNat % 16) (by omega)
    simp [quotes, h1, h2]
  · simp [quotes, hq, hb]

theorem quotes_escapes (t : List Char) : ∀ s : List Char, quotes false (s.flatMap Json.escape ++ t) = quotes false t
  | [] => rfl
  | c :: s => by rw [List.flatMap_cons, List.append_assoc, quotes_escape, quotes_escapes t s]

theorem quotes_quote (s t : List Char) : quotes false (Json.quote s ++ t) = quotes false t + 2 := by
  rw [Json.quote, List.cons_append, quotes, if_pos rfl, List.append_assoc, quotes_escapes, List.singleton_append, quotes,
    if_pos rfl]

theorem quotes_elements : ∀ fields : List String,
    quotes false (Json.stringifyElements (fields.map .str)) = 2 * fields.length
  | [] => by rw [List.map_nil, Json.stringifyElements]; rfl
  | f :: fields => by
    rw [List.map_cons, Json.stringifyElements, Json.stringify, quotes, if_neg (by decide),
      show decide (',' = '\\') = false from rfl, quotes_quote, quotes_elements fields, List.length_cons]
    omega

theorem quotes_tuple (f : String) (fields : List String) : quotes false (tuple (f :: fields)) = 2 * (fields.length + 1) := by
  rw [tuple, List.map_cons, Json.stringify, quotes, if_neg (by decide), show decide ('[' = '\\') = false from rfl,
    Json.stringify, quotes_quote, quotes_elements]
  omega

/-! ## The fields -/

theorem tuple_inj {fields fields' : List String} (h : tuple fields = tuple fields') : fields = fields' := by
  have hj : Json.arr (fields.map .str) = Json.arr (fields'.map .str) := by
    rw [← Option.some_inj, ← Json.parse_stringify, ← Json.parse_stringify]
    exact congrArg Json.parse h
  exact List.map_injective_iff.2 (fun _ _ => Json.str.inj) (Json.arr.inj hj)

theorem tuple_head (f : String) (fields : List String) : ∃ t, tuple (f :: fields) = '[' :: '"' :: t :=
  ⟨_, by rw [tuple, List.map_cons, Json.stringify, Json.stringify, Json.quote, List.cons_append]⟩

/-- No text before a colon takes in the start of fields after it: it would take in a quote of theirs. -/
theorem tuple_not_suffix {f g : String} {fs gs : List String} {a : List Char} (hlen : fs.length = gs.length)
    (h : ':' :: tuple (f :: fs) = a ++ ':' :: tuple (g :: gs)) : a = [] := by
  have hf := quotes_tuple f fs
  obtain ⟨t, ht⟩ := tuple_head f fs
  rw [ht] at h hf
  match a with
  | [] => rfl
  | [c] =>
    rw [List.cons_append, List.nil_append, List.cons.injEq, List.cons.injEq] at h
    exact absurd h.2.1 (by decide)
  | [c, d] =>
    simp only [List.cons_append, List.nil_append, List.cons.injEq] at h
    exact absurd h.2.2.1 (by decide)
  | c :: d :: e :: s =>
    simp only [List.cons_append, List.cons.injEq] at h
    obtain ⟨-, -, -, rfl⟩ := h
    rw [show '[' :: '"' :: (s ++ ':' :: tuple (g :: gs)) = ('[' :: '"' :: s) ++ ':' :: tuple (g :: gs) from rfl, quotes_colon,
      quotes_tuple, quotes, if_neg (by decide), show decide ('[' = '\\') = false from rfl, quotes, if_pos rfl] at hf
    omega

theorem version_unique {f g : String} {fs gs : List String} {v w : List Char} (hlen : fs.length = gs.length)
    (h : v ++ ':' :: tuple (f :: fs) = w ++ ':' :: tuple (g :: gs)) : v = w ∧ f :: fs = g :: gs := by
  rcases List.append_eq_append_iff.1 h with ⟨a, rfl, ha⟩ | ⟨a, rfl, ha⟩
  · obtain rfl := tuple_not_suffix hlen ha
    exact ⟨(List.append_nil v).symm, tuple_inj (List.cons.inj ha).2⟩
  · obtain rfl := tuple_not_suffix hlen.symm ha
    exact ⟨List.append_nil w, (tuple_inj (List.cons.inj ha).2).symm⟩

/-- The first letter that the functions do not share. -/
def Call.letter : Call → Char
  | .contextHash .. => 'c'
  | .signalHash .. => 's'
  | .purposeTag _ => 'p'

theorem text_contextHash (platform communityId roleId version : String) :
    (Call.contextHash platform communityId roleId version).text =
      "dash-mno-verify:context:".toList ++ version.toList ++ ':' :: tuple [platform, communityId, roleId] := rfl

theorem text_signalHash (nonce account : String) :
    (Call.signalHash nonce account).text = "dash-mno-verify:signal:v2:".toList ++ tuple [nonce, account] := rfl

theorem text_admission : (Call.purposeTag .singleTierAdmission).text =
    "dash-mno-verify:purpose:single-tier-admission:v1".toList := rfl

theorem text_registration : (Call.purposeTag .seasonalRegistration).text =
    "dash-mno-verify:purpose:seasonal-registration:v1".toList := rfl

theorem letter_text (c : Call) : c.text[16]? = some c.letter := by
  match c with
  | .contextHash p q r v =>
    rw [text_contextHash, List.append_assoc, List.getElem?_append_left (by decide), Call.letter]
    decide
  | .signalHash n a =>
    rw [text_signalHash, List.getElem?_append_left (by decide), Call.letter]
    decide
  | .purposeTag .singleTierAdmission => rw [text_admission]; decide
  | .purposeTag .seasonalRegistration => rw [text_registration]; decide

theorem label_inj : "dash-mno-verify:purpose:single-tier-admission:v1".toList ≠
    "dash-mno-verify:purpose:seasonal-registration:v1".toList := by decide

theorem text_inj {c c' : Call} (h : c.text = c'.text) : c = c' := by
  have hl : c.letter = c'.letter := by
    rw [← Option.some_inj, ← letter_text, ← letter_text, h]
  match c, c', hl, h with
  | .contextHash p q r v, .contextHash p' q' r' v', _, h =>
    rw [text_contextHash, text_contextHash, List.append_assoc, List.append_assoc, List.append_cancel_left_eq] at h
    have hlen : [q, r].length = [q', r'].length := rfl
    obtain ⟨hv, hf⟩ := version_unique hlen h
    obtain rfl := String.toList_inj.1 hv
    cases hf
    rfl
  | .signalHash n a, .signalHash n' a', _, h =>
    rw [text_signalHash, text_signalHash, List.append_cancel_left_eq] at h
    cases tuple_inj h
    rfl
  | .purposeTag .singleTierAdmission, .purposeTag .singleTierAdmission, _, _ => rfl
  | .purposeTag .seasonalRegistration, .purposeTag .seasonalRegistration, _, _ => rfl
  | .purposeTag .singleTierAdmission, .purposeTag .seasonalRegistration, _, h =>
    rw [text_admission, text_registration] at h
    exact absurd h label_inj
  | .purposeTag .seasonalRegistration, .purposeTag .singleTierAdmission, _, h =>
    rw [text_admission, text_registration] at h
    exact absurd h.symm label_inj

/-- Calls hash the same bytes only if they are the same function with the same arguments. -/
theorem preimage_inj (c c' : Call) : c.preimage = c'.preimage ↔ c = c' :=
  ⟨fun h => text_inj (Utf8.encode_inj h), fun h => by rw [h]⟩

end HashPreimages
