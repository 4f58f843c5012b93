import LamaServer.Gbnf
import LamaServer.JsonSchema
import LamaServer.Lib.Decimal

/-!
# Bounds of integers

For an integer between bounds `_build_min_max_int` writes an expression of digits. What it writes is
held here as a tree, with the text of it; a digit is held by its value.
-/

namespace LamaServer

open scoped Decimal
open Decimal (Digit)

/-! ## What is written -/

/-- A part of an alternative: `"-"`, a literal of digits, a class of digits, some digits, or
alternatives in parentheses. -/
inductive BoundsItem where
  | minus
  | literal (digits : List Digit)
  | digitRange (from_ to_ : Digit)
  | moreDigits (minDigits maxDigits : Nat)
  | group (alternatives : List (List BoundsItem))

abbrev BoundsAlternatives := List (List BoundsItem)

/-- The limits of `int`. -/
def intMin : Int := -2 ^ 31

def intMax : Int := 2 ^ 31 - 1

def digitText (d : Digit) : UInt8 := ascii '0' + UInt8.ofNat d

/-- `std::to_string`. -/
def numberText (n : Nat) : Text := (Decimal.ofNat n).map digitText

namespace BoundsItem

mutual

def text : BoundsItem → Text
  | minus => [ascii '"', ascii '-', ascii '"']
  | literal digits => ascii '"' :: digits.map digitText ++ [ascii '"']
  | digitRange from_ to_ => ascii '[' ::
    (if from_ = to_ then [digitText from_] else [digitText from_, ascii '-', digitText to_]) ++
      [ascii ']']
  | moreDigits minDigits maxDigits =>
    [ascii '[', ascii '0', ascii '-', ascii '9', ascii ']'] ++
      if minDigits = maxDigits ∧ minDigits = 1 then []
      else ascii '{' :: numberText minDigits ++
        (if maxDigits ≠ minDigits then
          ascii ',' :: if (maxDigits : Int) ≠ intMax then numberText maxDigits else []
        else []) ++ [ascii '}']
  | group alternatives => ascii '(' :: alternativesText alternatives ++ [ascii ')']

def sequenceText : List BoundsItem → Text
  | [] => []
  | [item] => item.text
  | item :: items => item.text ++ ascii ' ' :: sequenceText items

def alternativesText : BoundsAlternatives → Text
  | [] => []
  | [items] => sequenceText items
  | items :: alternatives =>
    sequenceText items ++ [ascii ' ', ascii '|', ascii ' '] ++ alternativesText alternatives

end

end BoundsItem

open BoundsItem

/-! ## Ranges between numerals of one length -/

/-- The first loop of `uniform_range`. -/
def commonLength : List Digit → List Digit → Nat
  | f :: from_, t :: to_ => if f = t then commonLength from_ to_ + 1 else 0
  | _, _ => 0

/-- `uniform_range`; the number is the length of `from`. -/
def uniformRange : Nat → List Digit → List Digit → List BoundsItem
  | 0, _, _ => []
  | n + 1, from_, to_ =>
    let i := commonLength from_ to_
    let common := if i > 0 then [literal (from_.take i)] else []
    match from_.drop i, to_.drop i with
    | f :: fromSub, t :: toSub =>
      let subLen := fromSub.length
      if subLen > 0 then
        let subZeros := Decimal.zeros subLen
        let subNines := Decimal.nines subLen
        let toReached : Bool := fromSub ≠ subZeros ∧ f < t - 1 ∧ toSub = subNines
        let lower := if fromSub = subZeros then
            [[digitRange f (t - 1), moreDigits subLen subLen]]
          else [digitRange f f, group [uniformRange n fromSub subNines]] ::
            if f < t - 1 then
              [[digitRange (f + 1) (if toReached then t else t - 1), moreDigits subLen subLen]]
            else []
        let upper := if toReached then [] else [digitRange t t :: uniformRange n subZeros toSub]
        common ++ [group (lower ++ upper)]
      else common ++ [digitRange f t]
    | _, _ => common

/-- The loop over the numbers of digits, so many below that of the maximum. -/
def uniformRanges : Nat → List Digit → List Digit → BoundsAlternatives
  | 0, minS, maxS => [uniformRange minS.length minS maxS]
  | n + 1, minS, maxS => uniformRange minS.length minS (Decimal.nines minS.length) ::
    uniformRanges n (1 :: Decimal.zeros minS.length) maxS

/-! ## Bounds -/

/-- What is thrown; `undefined` is an overflow of `int`. -/
inductive BoundsError where
  | runtimeError (what : String)
  | undefined
  | outOfFuel
  deriving DecidableEq, Repr

/-- `_build_min_max_int`. -/
def buildMinMaxInt : Nat → Int → Int → Nat → Bool → Except BoundsError BoundsAlternatives
  | 0, _, _, _, _ => .error .outOfFuel
  | fuel + 1, minValue, maxValue, decimalsLeft, topLevel =>
    let hasMin := minValue ≠ intMin
    let hasMax := maxValue ≠ intMax
    let lessDecimals := max (decimalsLeft - 1) 1
    let rangeStart : Digit := if topLevel then 1 else 0
    if hasMin ∧ hasMax then
      if minValue < 0 ∧ maxValue < 0 then do
        let out ← buildMinMaxInt fuel (-maxValue) (-minValue) decimalsLeft true
        return [[minus, group out]]
      else do
        let negative ← if minValue < 0 then do
            let out ← buildMinMaxInt fuel 0 (-minValue) decimalsLeft true
            pure [[minus, group out]]
          else pure []
        let minS := Decimal.ofNat (max minValue 0).toNat
        let maxS := Decimal.ofNat maxValue.toNat
        return negative ++ uniformRanges (maxS.length - minS.length) minS maxS
    else if hasMin then
      if minValue < 0 then do
        let out ← buildMinMaxInt fuel intMin (-minValue) decimalsLeft false
        return [[minus, group out], [digitRange 0 0],
          [digitRange 1 9, moreDigits 0 (decimalsLeft - 1)]]
      else if minValue = 0 then
        if topLevel then
          return [[digitRange 0 0], [digitRange 1 9, moreDigits 0 lessDecimals]]
        else return [[moreDigits 1 decimalsLeft]]
      else if minValue ≤ 9 then
        let c := Fin.ofNat 10 minValue.toNat
        let lower := if c > rangeStart then
            [[digitRange rangeStart (c - 1), moreDigits 1 lessDecimals]]
          else []
        return lower ++ [[digitRange c 9, moreDigits 0 lessDecimals]]
      else match Decimal.ofNat minValue.toNat with
        | [] => .error .undefined
        | c :: rest => do
          let lower := if c > 1 then
              [[digitRange rangeStart (c - 1), moreDigits (rest.length + 1) lessDecimals]]
            else []
          let out ← buildMinMaxInt fuel (Decimal.value rest) intMax lessDecimals false
          let higher := if c < 9 then
              [[digitRange (c + 1) 9, moreDigits rest.length lessDecimals]]
            else []
          return lower ++ [[digitRange c c, group out]] ++ higher
    else if hasMax then
      if maxValue ≥ 0 then do
        let negative := if topLevel then
            [[minus, digitRange 1 9, moreDigits 0 lessDecimals]]
          else []
        let out ← buildMinMaxInt fuel 0 maxValue decimalsLeft true
        return negative ++ out
      else if maxValue = intMin then .error .undefined
      else do
        let out ← buildMinMaxInt fuel (-maxValue) intMax decimalsLeft false
        return [[minus, group out]]
    else .error (.runtimeError "At least one of min_value or max_value must be set")

/-- Bounds that are negative are turned round. -/
theorem buildMinMaxInt_negative {fuel n : Nat} {a b : Int} {topLevel : Bool} (ha : a ≠ intMin)
    (hb : b ≠ intMax) (ha' : a < 0) (hb' : b < 0) :
    buildMinMaxInt (fuel + 1) a b n topLevel = do
      let out ← buildMinMaxInt fuel (-b) (-a) n true
      return [[minus, group out]] := by
  rw [buildMinMaxInt, if_pos ⟨ha, hb⟩, if_pos ⟨ha', hb'⟩]

/-- The expression for bounds that may be missing, as `visit` has it written. -/
def boundsText (minimum maximum : Option Int) : Except BoundsError Text := do
  let out ← buildMinMaxInt 16 (minimum.getD intMin) (maximum.getD intMax) 16 true
  return alternativesText out

end LamaServer
