import Lethean.CryptonoteBasic.Addresses

/-!
# Lethean.Wallet.Uri

Payment URIs: `make_uri` and `parse_uri` of `wallet2.cpp`, with the amounts of
`cryptonote_format_utils.cpp` and the percent coding of `http_client.h`.

`parse_uri` compares the first seven characters of a URI with a scheme of eight, so it
takes no URI at all. What it does behind the scheme is a function of its own here
(`parseRemainder`).

Amounts are read back as they are printed, and a text that is read is a numeral of the
amount, although the point and zeros are edited before the digits are converted.
-/

namespace Lethean

/-! ### Amounts -/

/-- `std::to_string`. -/
def toDecimal (n : Nat) : List UInt8 :=
  if n = 0 then literal "0"
  else ((Nat.digits 10 n).map fun d => UInt8.ofNat ((charCode '0').toNat + d)).reverse

def printMoney (decimalPoint amount : Nat) : List UInt8 :=
  let s := toDecimal amount
  let s := List.replicate (decimalPoint + 1 - s.length) (charCode '0') ++ s
  if 0 < decimalPoint then
    s.take (s.length - decimalPoint) ++ literal "." ++ s.drop (s.length - decimalPoint)
  else s

def isDigit (b : UInt8) : Bool := charCode '0' ≤ b && b ≤ charCode '9'

/-- `get_xtype_from_string<uint64_t>`. -/
def getUint64FromString (str : List UInt8) : Option Nat :=
  if str.all isDigit = false ∨ str = [] then none
  else
    let v := str.foldl (fun v b => 10 * v + (b.toNat - (charCode '0').toNat)) 0
    if v < 2 ^ 64 then some v else none

/-- The loop of `parse_amount` over the digits behind the point. -/
def stripZeros (decimalPoint : Nat) : Nat → List UInt8 → List UInt8
  | 0, fraction => fraction
  | n + 1, fraction =>
    if decimalPoint < fraction.length ∧ fraction.getLast? = some (charCode '0') then
      stripZeros decimalPoint n fraction.dropLast
    else fraction

/-- The end of `parse_amount`, on digits of which the last `fractionSize` stood behind
the point. -/
def parseDigits (decimalPoint : Nat) (strAmount : List UInt8) (fractionSize : Nat) : Option Nat :=
  if strAmount = [] then none
  else
    getUint64FromString
      (strAmount ++ List.replicate (decimalPoint - fractionSize) (charCode '0'))

def parseAmount (decimalPoint : Nat) (strAmount : List UInt8) : Option Nat :=
  let strAmount := trim strAmount
  match strAmount.idxOf? (charCode '.') with
  | some pointIndex =>
    let fraction := strAmount.drop (pointIndex + 1)
    let fraction := stripZeros decimalPoint fraction.length fraction
    if decimalPoint < fraction.length then none
    else parseDigits decimalPoint (strAmount.take pointIndex ++ fraction) fraction.length
  | none => parseDigits decimalPoint strAmount 0

/-! ### What the amounts mean -/

def decimalValue (s : List UInt8) : Nat :=
  s.foldl (fun v b => 10 * v + (b.toNat - (charCode '0').toNat)) 0

/-- A decimal numeral: the digits `a`, and `b` behind a point that may be left out. -/
structure IsNumeral (s a b : List UInt8) : Prop where
  shape : s = a ∧ b = [] ∨ s = a ++ charCode '.' :: b
  nonempty : a ++ b ≠ []
  digits : ∀ c ∈ a ++ b, isDigit c = true

theorem decimalValue_concat (s : List UInt8) (b : UInt8) :
    decimalValue (s ++ [b]) = 10 * decimalValue s + (b.toNat - (charCode '0').toNat) :=
  List.foldl_concat ..

theorem decimalValue_zeros (s : List UInt8) (n : Nat) :
    decimalValue (s ++ List.replicate n (charCode '0')) = decimalValue s * 10 ^ n := by
  induction n with
  | zero => simp
  | succ n ih =>
    rw [List.replicate_succ', ← List.append_assoc, decimalValue_concat, ih, Nat.sub_self]
    ring

theorem isDigit_ofNat : ∀ d < 10, isDigit (UInt8.ofNat ((charCode '0').toNat + d)) = true ∧
    (UInt8.ofNat ((charCode '0').toNat + d)).toNat - (charCode '0').toNat = d := by
  decide +kernel

theorem isSpace_of_isDigit {b : UInt8} (h : isDigit b = true) : isSpace b = false := by
  have hall : ∀ n < 256, isDigit (UInt8.ofNat n) = true → isSpace (UInt8.ofNat n) = false := by
    decide +kernel
  have := hall b.toNat b.toNat_lt
  rw [UInt8.ofNat_toNat] at this
  exact this h

theorem decimalValue_digits {ds : List Nat} (h : ∀ d ∈ ds, d < 10) :
    let s := (ds.map fun d => UInt8.ofNat ((charCode '0').toNat + d)).reverse
    (∀ b ∈ s, isDigit b = true) ∧ decimalValue s = Nat.ofDigits 10 ds := by
  induction ds with
  | nil => exact ⟨by simp, rfl⟩
  | cons d ds ih =>
    obtain ⟨hdigits, hvalue⟩ := ih fun x hx => h x (by simp [hx])
    obtain ⟨hdigit, hd⟩ := isDigit_ofNat d (h d (by simp))
    dsimp only
    rw [List.map_cons, List.reverse_cons, decimalValue_concat, hvalue, hd, Nat.ofDigits_cons]
    exact ⟨forall_mem_concat.mpr ⟨hdigits, hdigit⟩, Nat.add_comm _ _⟩

theorem toDecimal_spec (n : Nat) :
    (∀ b ∈ toDecimal n, isDigit b = true) ∧ decimalValue (toDecimal n) = n := by
  rw [toDecimal]
  split
  · rename_i hzero
    rw [hzero]
    exact ⟨by decide +kernel, rfl⟩
  · have h := @decimalValue_digits (Nat.digits 10 n) fun d => Nat.digits_lt_base (by decide)
    rwa [Nat.ofDigits_digits] at h

@[simp] theorem isDigit_zero : isDigit (charCode '0') = true := rfl

theorem parseDigits_eq_some {decimalPoint k v : Nat} {s : List UInt8} :
    parseDigits decimalPoint s k = some v ↔ s ≠ [] ∧ (∀ b ∈ s, isDigit b = true) ∧
      decimalValue s * 10 ^ (decimalPoint - k) = v ∧ v < 2 ^ 64 := by
  rw [parseDigits]
  split
  · simp [*]
  rename_i hne
  rw [getUint64FromString, ← decimalValue_zeros]
  change (if _ then _ else if decimalValue _ < _ then some (decimalValue _) else _) = _ ↔ _
  generalize decimalValue (s ++ _) = value
  by_cases hs : ∀ b ∈ s, isDigit b = true
  · have hall : (s ++ List.replicate (decimalPoint - k) (charCode '0')).all isDigit = true := by
      simpa using hs
    rw [if_neg (by simp [hall, hne]), Option.ite_none_right_eq_some, Option.some.injEq,
      and_iff_right hne, and_iff_right hs]
    exact ⟨fun h => ⟨h.2, h.2 ▸ h.1⟩, fun h => ⟨h.1 ▸ h.2, h.1⟩⟩
  · have hall : (s ++ List.replicate (decimalPoint - k) (charCode '0')).all isDigit = false := by
      simpa using hs
    rw [if_pos (.inl hall)]
    simp [hs]

theorem stripZeros_append (decimalPoint n : Nat) (fraction : List UInt8) :
    ∃ k, fraction = stripZeros decimalPoint n fraction ++ List.replicate k (charCode '0') := by
  induction n generalizing fraction with
  | zero => exact ⟨0, (List.append_nil _).symm⟩
  | succ n ih =>
    rw [stripZeros]
    split
    · rename_i h
      obtain ⟨k, hk⟩ := ih fraction.dropLast
      refine ⟨k + 1, ?_⟩
      rw [List.replicate_succ', ← List.append_assoc, ← hk, List.dropLast_append_getLast? _ h.2]
    · exact ⟨0, (List.append_nil _).symm⟩

theorem stripZeros_of_le {decimalPoint : Nat} {fraction : List UInt8}
    (h : fraction.length ≤ decimalPoint) (n : Nat) :
    stripZeros decimalPoint n fraction = fraction := by
  cases n with
  | zero => rfl
  | succ n => rw [stripZeros, if_neg (by omega)]

theorem idxOf?_append_cons {a b : List UInt8} {x : UInt8} (h : x ∉ a) :
    (a ++ x :: b).idxOf? x = some a.length := by
  induction a with
  | nil => simp [List.idxOf?_cons]
  | cons y a ih =>
    rw [List.mem_cons, not_or] at h
    simp [List.idxOf?_cons, ih h.2, Ne.symm h.1]

/-- Amounts are read back. -/
theorem parseAmount_printMoney (decimalPoint : Nat) {amount : Nat} (h : amount < 2 ^ 64) :
    parseAmount decimalPoint (printMoney decimalPoint amount) = some amount := by
  obtain ⟨hdecimal, hvalue⟩ := toDecimal_spec amount
  unfold printMoney
  extract_lets t s
  have hdigits : ∀ b ∈ s, isDigit b = true := by
    intro b hb
    rcases List.mem_append.mp hb with hb | hb
    · simp [List.eq_of_mem_replicate hb]
    · exact hdecimal b hb
  have hs : decimalValue s = amount := by
    have hzeros : decimalValue (List.replicate (decimalPoint + 1 - t.length) (charCode '0')) = 0 := by
      simpa [decimalValue] using decimalValue_zeros [] (decimalPoint + 1 - t.length)
    rw [decimalValue] at hzeros hvalue ⊢
    rw [List.foldl_append, hzeros, hvalue]
  have hlen : decimalPoint < s.length := by
    rw [List.length_append, List.length_replicate]
    omega
  clear_value s
  have hne : s ≠ [] := List.length_pos_iff.mp ((Nat.zero_le _).trans_lt hlen)
  have hpoint : charCode '.' ∉ s := fun hmem => absurd (hdigits _ hmem) (by decide)
  split
  · have hback : (s.drop (s.length - decimalPoint)).length = decimalPoint := by
      rw [List.length_drop]
      omega
    have hspace : ∀ b ∈ s.take (s.length - decimalPoint) ++ charCode '.' ::
        s.drop (s.length - decimalPoint), isSpace b = false := by
      simp only [List.mem_append, List.mem_cons]
      rintro b (hb | rfl | hb)
      · exact isSpace_of_isDigit (hdigits b (List.mem_of_mem_take hb))
      · decide
      · exact isSpace_of_isDigit (hdigits b (List.mem_of_mem_drop hb))
    rw [List.append_assoc, show literal "." = [charCode '.'] from rfl, List.singleton_append,
      parseAmount, trim_of_no_space hspace,
      idxOf?_append_cons fun hmem => hpoint (List.mem_of_mem_take hmem)]
    dsimp only
    rw [List.take_left, ← List.drop_drop, List.drop_left, List.drop_one, List.tail_cons,
      stripZeros_of_le hback.le, if_neg (by omega), List.take_append_drop]
    exact parseDigits_eq_some.mpr ⟨hne, hdigits, by simp [hback, hs], h⟩
  · obtain rfl : decimalPoint = 0 := by omega
    rw [parseAmount, trim_of_no_space fun b hb => isSpace_of_isDigit (hdigits b hb),
      List.idxOf?_eq_none_iff.mpr hpoint]
    exact parseDigits_eq_some.mpr ⟨hne, hdigits, by simp [hs], h⟩

/-- What is accepted is a numeral, with its value. -/
theorem parseAmount_sound {decimalPoint v : Nat} {s : List UInt8}
    (h : parseAmount decimalPoint s = some v) : ∃ a b, IsNumeral (trim s) a b ∧
      decimalValue (a ++ b) * 10 ^ decimalPoint = v * 10 ^ b.length := by
  unfold parseAmount at h
  dsimp only at h
  split at h
  · rename_i i hi
    obtain ⟨hlt, hpoint, -⟩ := List.findIdx?_eq_some_iff_getElem.mp hi
    have hsplit : trim s = (trim s).take i ++ charCode '.' :: (trim s).drop (i + 1) := by
      rw [← eq_of_beq hpoint, ← List.drop_eq_getElem_cons hlt, List.take_append_drop]
    split at h
    · cases h
    rename_i hfits
    obtain ⟨k, hk⟩ := stripZeros_append decimalPoint ((trim s).drop (i + 1)).length
      ((trim s).drop (i + 1))
    generalize stripZeros decimalPoint _ _ = fraction at *
    obtain ⟨hne, hdigits, rfl, -⟩ := parseDigits_eq_some.mp h
    refine ⟨_, _, ⟨.inr hsplit, ?_, ?_⟩, ?_⟩
    all_goals rw [hk, ← List.append_assoc]
    · exact List.append_ne_nil_of_left_ne_nil hne _
    · intro c hc
      rcases List.mem_append.mp hc with hc | hc
      · exact hdigits c hc
      · simp [List.eq_of_mem_replicate hc]
    · rw [decimalValue_zeros, List.length_append, List.length_replicate, mul_assoc, mul_assoc,
        ← pow_add, ← pow_add]
      congr 2
      omega
  · obtain ⟨hne, hdigits, rfl, -⟩ := parseDigits_eq_some.mp h
    exact ⟨trim s, [], ⟨.inl ⟨rfl, rfl⟩, by simpa using hne, by simpa using hdigits⟩, by simp⟩

/-- **Amount texts are faithful.** -/
theorem amount_text_faithful (decimalPoint : Nat) :
    (∀ x < 2 ^ 64, parseAmount decimalPoint (printMoney decimalPoint x) = some x) ∧
      ∀ s v, parseAmount decimalPoint s = some v → ∃ a b, IsNumeral (trim s) a b ∧
        decimalValue (a ++ b) * 10 ^ decimalPoint = v * 10 ^ b.length :=
  ⟨fun _ h => parseAmount_printMoney decimalPoint h, fun _ _ h => parseAmount_sound h⟩

/-! ### Percent coding -/

/-- `get_hex_vals`. -/
def hexVals : List UInt8 := literal "0123456789ABCDEF"

/-- `get_unsave_chars`. -/
def unsaveChars : List UInt8 := literal "\"<>%\\^[]`+$,@:;!#&"

def isUnsafe (compareChar : UInt8) : Bool :=
  compareChar ≤ 32 || 123 ≤ compareChar || unsaveChars.contains compareChar

/-- `dec_to_hex` to the base 16. A byte has two digits, so its loop turns at most once. -/
def decToHex (num : UInt8) : List UInt8 :=
  let numChar := num.toNat
  let csTmp := if 16 ≤ numChar then [hexVals.getD (numChar % 16) 0] else []
  let numChar := if 16 ≤ numChar then numChar / 16 else numChar
  let csTmp := csTmp ++ [hexVals.getD numChar 0]
  (if csTmp.length < 2 then csTmp ++ literal "0" else csTmp).reverse

def toUpper (b : UInt8) : UInt8 := if charCode 'a' ≤ b ∧ b ≤ charCode 'z' then b - 32 else b

def hexToDec2bytes (s0 s1 : UInt8) : List UInt8 :=
  match hexVals.idxOf? (toUpper s0), hexVals.idxOf? (toUpper s1) with
  | some i0, some i1 => [UInt8.ofNat (i0 * 16 ||| i1)]
  | _, _ => [charCode '%', s0, s1]

def converToUrlFormat (uri : List UInt8) : List UInt8 :=
  uri.flatMap fun b => if isUnsafe b then charCode '%' :: decToHex b else [b]

def convertFromUrlFormat : List UInt8 → List UInt8
  | x :: a :: b :: rest =>
    if x = charCode '%' then hexToDec2bytes a b ++ convertFromUrlFormat rest
    else x :: convertFromUrlFormat (a :: b :: rest)
  | x :: rest => x :: convertFromUrlFormat rest
  | [] => []

/-! ### URIs -/

/-- The arguments of `make_uri`. -/
structure UriFields where
  address : List UInt8
  paymentId : List UInt8
  amount : Nat
  txDescription : List UInt8
  recipientName : List UInt8

/-- The outputs of `parse_uri`. -/
structure ParsedUri where
  address : List UInt8
  paymentId : List UInt8
  amount : Nat
  txDescription : List UInt8
  recipientName : List UInt8
  unknownParameters : List (List UInt8)
  deriving DecidableEq

def ParsedUri.empty : ParsedUri := ⟨[], [], 0, [], [], []⟩

/-- The outputs that give the arguments back. -/
def UriFields.parsed (f : UriFields) : ParsedUri :=
  ⟨f.address, f.paymentId, f.amount, f.txDescription, f.recipientName, []⟩

/-- `parse_long_payment_id` or `parse_short_payment_id`. -/
def parsesAsPaymentId (s : List UInt8) : Bool :=
  (parseHexstrToBinbuff s).any fun data => data.length = 32 || data.length = 8

/-- `uri += (n_fields++ ? "&" : "?") + key + "=" + value`. -/
def addField (uri : List UInt8 × Nat) (key : String) (value : List UInt8) : List UInt8 × Nat :=
  (uri.1 ++ literal (if uri.2 ≠ 0 then "&" else "?") ++ literal key ++ literal "=" ++ value,
    uri.2 + 1)

/-- What `parse_uri` does with one argument. -/
def parseArgument (decimalPoint : Nat) (hasPaymentId : Bool)
    (state : List (List UInt8) × ParsedUri) (arg : List UInt8) :
    Except (List UInt8) (List (List UInt8) × ParsedUri) :=
  let (haveArg, out) := state
  match arg.splitOn (charCode '=') with
  | [key, value] =>
    if haveArg.contains key then .error (literal "URI has more than one instance of " ++ key)
    else
      let haveArg := key :: haveArg
      if key = literal "tx_amount" then
        match parseAmount decimalPoint value with
        | none => .error (literal "URI has invalid amount: " ++ value)
        | some amount => .ok (haveArg, { out with amount := amount })
      else if key = literal "tx_payment_id" then
        if hasPaymentId then
          .error (literal "Separate payment id given with an integrated address")
        else if parsesAsPaymentId value = false then
          .error (literal "Invalid payment id: " ++ value)
        else .ok (haveArg, { out with paymentId := value })
      else if key = literal "recipient_name" then
        .ok (haveArg, { out with recipientName := convertFromUrlFormat value })
      else if key = literal "tx_description" then
        .ok (haveArg, { out with txDescription := convertFromUrlFormat value })
      else .ok (haveArg, { out with unknownParameters := out.unknownParameters ++ [arg] })
  | _ => .error (literal "URI has wrong parameter: " ++ arg)

section

variable (c : Crypto) (checkKey : PublicKey → Bool) (testnet : Bool) (decimalPoint : Nat)

/-- `make_uri`: the URI, or the text of the error. -/
def makeUri (f : UriFields) : Except (List UInt8) (List UInt8) :=
  match getAccountIntegratedAddressFromStr c checkKey testnet f.address with
  | none => .error (literal "wrong address: " ++ f.address)
  | some (_, newPaymentId) =>
    if newPaymentId.isSome = true ∧ f.paymentId ≠ [] then
      .error (literal "A single payment id is allowed")
    else if f.paymentId ≠ [] ∧ parsesAsPaymentId f.paymentId = false then
      .error (literal "Invalid payment id")
    else
      let uri := (literal "lethean:" ++ f.address, 0)
      let uri := if f.paymentId ≠ [] then addField uri "tx_payment_id" f.paymentId else uri
      let uri :=
        if 0 < f.amount then addField uri "tx_amount" (printMoney decimalPoint f.amount) else uri
      let uri :=
        if f.recipientName ≠ [] then
          addField uri "recipient_name" (converToUrlFormat f.recipientName)
        else uri
      let uri :=
        if f.txDescription ≠ [] then
          addField uri "tx_description" (converToUrlFormat f.txDescription)
        else uri
      .ok uri.1

/-- `parse_uri` behind the scheme. `strchr` stops at a null character. -/
def parseRemainder (out : ParsedUri) (remainder : List UInt8) : Except (List UInt8) ParsedUri :=
  let ptr := (remainder.takeWhile (· ≠ 0)).idxOf? (charCode '?')
  let address := match ptr with
    | some i => remainder.take i
    | none => remainder
  match getAccountIntegratedAddressFromStr c checkKey testnet address with
  | none => .error (literal "URI has wrong address: " ++ address)
  | some (_, newPaymentId) =>
    let out := { out with address := address }
    let body := remainder.drop (address.length + 1)
    if ptr = none ∨ body = [] then .ok out
    else
      ((body.splitOn (charCode '&')).foldlM
        (parseArgument decimalPoint newPaymentId.isSome) ([], out)).map Prod.snd

def parseUri (out : ParsedUri) (uri : List UInt8) : Except (List UInt8) ParsedUri :=
  if uri.take 7 ≠ literal "lethean:" then
    .error (literal "URI has wrong scheme (expected \"lethean:\"): " ++ uri)
  else parseRemainder c checkKey testnet decimalPoint out (uri.drop 7)

/-! ### The scheme -/

/-- No URI has the scheme that `parse_uri` expects. -/
theorem parseUri_eq_error (out : ParsedUri) (uri : List UInt8) :
    parseUri c checkKey testnet decimalPoint out uri =
      .error (literal "URI has wrong scheme (expected \"lethean:\"): " ++ uri) := by
  rw [parseUri, if_pos]
  intro h
  have hlen := congrArg List.length h
  rw [List.length_take, show (literal "lethean:").length = 8 from rfl] at hlen
  omega

/-- The arguments that `make_uri` refuses. -/
def UriRefused (f : UriFields) : Prop :=
  match getAccountIntegratedAddressFromStr c checkKey testnet f.address with
  | none => True
  | some (_, newPaymentId) =>
    f.paymentId ≠ [] ∧ (newPaymentId.isSome = true ∨ parsesAsPaymentId f.paymentId = false)

theorem makeUri_isOk_iff (f : UriFields) :
    (∃ uri, makeUri c checkKey testnet decimalPoint f = .ok uri) ↔
      ¬ UriRefused c checkKey testnet f := by
  rw [makeUri, UriRefused]
  cases getAccountIntegratedAddressFromStr c checkKey testnet f.address with
  | none => simp
  | some result =>
    dsimp only
    split
    · rename_i hsingle
      simp [hsingle.1, hsingle.2]
    rename_i hsingle
    split
    · rename_i hinvalid
      simp [hinvalid.1, hinvalid.2]
    · rename_i hvalid
      refine iff_of_true ⟨_, rfl⟩ ?_
      rintro ⟨hne, hsome | hbad⟩
      · exact hsingle ⟨hsome, hne⟩
      · exact hvalid ⟨hne, hbad⟩

/-- What is asked of the two functions: a URI that is made is parsed, and gives the
arguments back. -/
def UriRoundTrips (f : UriFields) : Prop :=
  ∀ uri, makeUri c checkKey testnet decimalPoint f = .ok uri →
    parseUri c checkKey testnet decimalPoint .empty uri = .ok f.parsed

/-- **Payment URIs do not round trip.** They do only in that none is made. -/
theorem uri_round_trips_iff (f : UriFields) :
    UriRoundTrips c checkKey testnet decimalPoint f ↔ UriRefused c checkKey testnet f := by
  rw [← not_iff_not, ← makeUri_isOk_iff c checkKey testnet decimalPoint]
  constructor
  · intro hnot
    by_contra hnone
    exact hnot fun uri huri => absurd ⟨uri, huri⟩ hnone
  · rintro ⟨uri, huri⟩ hround
    have hparse := hround uri huri
    rw [parseUri_eq_error] at hparse
    cases hparse

end

/-- The URI of an address alone is refused. -/
theorem uri_scheme_refused :
    ∃ address uri, makeUri zeroCrypto (fun _ => true) false 8 ⟨address, [], 0, [], []⟩ = .ok uri ∧
      parseUri zeroCrypto (fun _ => true) false 8 .empty uri =
        .error (literal "URI has wrong scheme (expected \"lethean:\"): " ++ uri) := by
  obtain ⟨s, hs⟩ := printedAddress_isSome zeroCrypto false ⟨nullHash, nullHash, false⟩ none
  have hfrom := (fromStr_printedAddress zeroCrypto (fun _ => true) hs).mpr ⟨⟨rfl, rfl⟩, rfl, rfl⟩
  refine ⟨s, literal "lethean:" ++ s, ?_, parseUri_eq_error _ _ _ _ _ _⟩
  rw [makeUri, hfrom]
  rfl

end Lethean
