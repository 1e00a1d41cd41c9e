import Dni.FloodRules
import Dni.Lib.Digits
import Dni.Lib.JsonText
import Dni.Lib.Loops

namespace Dni

/-- encoding/json on a rule and on an array of rules. The action of a rule may be of any type here. -/
structure RuleCodec (α : Type) where
  marshal : Match × α → Option (List Char)
  unmarshal : List Char → Option (List (Match × α))

/-- A struct is written as an object, and null is read as no rules. -/
structure RuleCodec.Correct {α : Type} (codec : RuleCodec α) : Prop where
  object : ∀ r text, codec.marshal r = some text → ∃ body, text = '{' :: body
  null : codec.unmarshal "null".toList = some []

namespace RuleSet

section Marshal

variable {α : Type} (codec : RuleCodec α)

/-- The loop writes a comma before every rule but the first, and a bracket follows the last. -/
def marshalJSON (ord : GoMap.Order Match α) (rules : GoMap Match α) : Option (List Char) :=
  if rules.keys.length = 0 then some "null".toList
  else ((ord.run rules).mapM codec.marshal).map fun blobs => List.intercalate [','] blobs ++ [']']

def unmarshalJSON (v : List Char) (rules : GoMap Match α) : Option (GoMap Match α) :=
  (codec.unmarshal v).map fun rs => rs.foldl (fun m r => m.insert r.1 r.2) rules

/-- In every order the rules are written as a JSON text that an empty set reads as the same rules. -/
def RoundTrips (rules : GoMap Match α) : Prop :=
  ∀ ord, ∃ text, marshalJSON codec ord rules = some text ∧ Json.Text text ∧
    ∃ rules', unmarshalJSON codec text ∅ = some rules' ∧ ∀ m, rules'.lookup m = rules.lookup m

variable {codec} {rules : GoMap Match α}

/-- Without an opening bracket the text of some rules is no JSON text. -/
theorem not_text_marshalJSON (hc : codec.Correct) (hne : rules.keys ≠ []) {ord : GoMap.Order Match α}
    {text : List Char} (h : marshalJSON codec ord rules = some text) : ¬ Json.Text text := by
  have hlen : rules.keys.length ≠ 0 := fun h0 => hne (List.eq_nil_of_length_eq_zero h0)
  rw [marshalJSON, if_neg hlen] at h
  obtain ⟨blobs, hblobs, rfl⟩ := Option.map_eq_some_iff.mp h
  have hall := Loops.mapM_eq_some_iff.mp hblobs
  cases hrun : ord.run rules with
  | nil =>
    have hkeys := (ord.keys_perm rules).length_eq
    rw [GoMap.Order.keys, hrun] at hkeys
    exact absurd hkeys.symm hlen
  | cons r rs =>
    rw [hrun] at hall
    cases hall with
    | cons hr _ =>
      obtain ⟨body, rfl⟩ := hc.object r _ hr
      obtain ⟨rest, hrest⟩ := Digits.exists_intercalate_cons [','] ('{' :: body) _
      rw [hrest, List.cons_append, List.cons_append]
      exact Json.not_text_brace_bracket _

theorem roundTrips_empty (hc : codec.Correct) (he : rules.keys = []) : RoundTrips codec rules := by
  intro ord
  refine ⟨"null".toList, by rw [marshalJSON, if_pos (by rw [he]; rfl)], (Json.Value.literal (by simp)).text, ∅, ?_, ?_⟩
  · rw [unmarshalJSON, hc.null]
    rfl
  · intro m
    have hm : m ∉ rules := by
      rw [AList.mem_keys, he]
      exact List.not_mem_nil
    rw [AList.lookup_eq_none.mpr hm]
    rfl

end Marshal

/-- Whatever the rules, their text reads back only if there are none. -/
theorem roundTrips_iff {α : Type} (codec : RuleCodec α) (hc : codec.Correct) (rules : GoMap Match α) :
    RoundTrips codec rules ↔ rules.keys = [] := by
  apply Iff.intro
  · intro h
    by_contra hne
    obtain ⟨text, hmarshal, htext, _⟩ := h default
    exact not_text_marshalJSON hc hne hmarshal htext
  · exact roundTrips_empty hc

section Example

/-- The field of a struct, unless it is empty and left out then. -/
def stringField (name value : String) : List Char :=
  if value = "" then [] else ",\"".toList ++ name.toList ++ "\":\"".toList ++ value.toList ++ ['"']

def actionCode : ActionKind → List Char
  | .drop => ['0']
  | .limitPps => ['1']
  | .limitBps => ['2']
  | .bypass => ['3']

/-- `json.Marshal` of a rule whose texts need no escapes. -/
def marshalRule (r : Match × Action) : List Char :=
  '{' :: ("\"Type\":\"".toList ++ r.1.type.toList ++ ['"'] ++ stringField "SrcIP" r.1.srcIP ++
    stringField "DstIP" r.1.dstIP ++ stringField "IPProtocol" r.1.ipProto ++ stringField "SrcPort" r.1.srcPort ++
    stringField "DstPort" r.1.dstPort ++ stringField "TransProtocol" r.1.tProto ++
    stringField "TCPFlags" r.1.tcpFlags ++ ",\"Action\":".toList ++ actionCode r.2.drop ++
    ",\"LimitRate\":".toList ++ Nat.toDigits 10 r.2.rate ++ ['}'])

/-- Of the texts below only null is one of rules. -/
def ruleCodec : RuleCodec Action where
  marshal r := some (marshalRule r)
  unmarshal v := if v = "null".toList then some [] else none

theorem ruleCodec_correct : ruleCodec.Correct where
  object r text h := by
    cases h
    exact ⟨_, rfl⟩
  null := by decide

def oneRule : GoMap Match Action := (RuleSet.new [genL3Rule "10.0.0.1" .drop 0]).rules

theorem roundTrips_iff_oneRule : ruleCodec.Correct ∧ (RoundTrips ruleCodec oneRule ↔ oneRule.keys = []) :=
  ⟨ruleCodec_correct, roundTrips_iff ruleCodec ruleCodec_correct oneRule⟩

/-- The text of a set with one rule. -/
theorem oneRule_unreadable :
    marshalJSON ruleCodec .stored oneRule =
        some "\x7b\"Type\":\"l3\",\"SrcIP\":\"10.0.0.1\",\"Action\":0,\"LimitRate\":0\x7d]".toList ∧
      ¬ RoundTrips ruleCodec oneRule := by
  refine ⟨by decide +kernel, ?_⟩
  intro h
  obtain ⟨text, hmarshal, htext, _⟩ := h .stored
  exact not_text_marshalJSON ruleCodec_correct (by decide) hmarshal htext

end Example

end RuleSet

end Dni
