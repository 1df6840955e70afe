import ClosureLisp.Canon.Encode
import ClosureLisp.Cbor.Decode

/-!
# Serialized canonical forms can be read back

Every node starts with its tag, every name and every list with its length, so the bytes of a
node determine the node and where they end. Lengths are cut to thirty-two bits, so this holds
for canonical forms that count no further than that.
-/

namespace ClosureLisp

namespace Cbor

/-! ## Words -/

theorem bigEndian_word16 (word : UInt16) : bigEndian (Bytes.word16 word) = word.toNat := by
  have bound := word.toNat_lt
  simp only [bigEndian, Bytes.word16, List.foldl_cons, List.foldl_nil, UInt16.toNat_toUInt8,
    UInt16.toNat_shiftRight, UInt16.reduceToNat, Nat.shiftRight_eq_div_pow, Nat.reduceMod,
    Nat.reducePow]
  omega

theorem bigEndian_word32 (word : UInt32) : bigEndian (Bytes.word32 word) = word.toNat := by
  have bound := word.toNat_lt
  simp only [bigEndian, Bytes.word32, List.foldl_cons, List.foldl_nil, UInt32.toNat_toUInt8,
    UInt32.toNat_shiftRight, UInt32.reduceToNat, Nat.shiftRight_eq_div_pow, Nat.reduceMod,
    Nat.reducePow]
  omega

theorem bigEndian_word64 (word : UInt64) : bigEndian (Bytes.word64 word) = word.toNat := by
  have bound := word.toNat_lt
  simp only [bigEndian, Bytes.word64, Bytes.word32, List.cons_append, List.nil_append,
    List.foldl_cons, List.foldl_nil, UInt32.toNat_toUInt8, UInt32.toNat_shiftRight,
    UInt32.reduceToNat, UInt64.toNat_toUInt32, UInt64.toNat_shiftRight, UInt64.reduceToNat,
    Nat.shiftRight_eq_div_pow, Nat.reduceMod, Nat.reducePow]
  omega

end Cbor

theorem Bytes.word16_inj {left right : UInt16} (same : word16 left = word16 right) :
    left = right := by
  apply UInt16.toNat_inj.mp
  rw [← Cbor.bigEndian_word16, ← Cbor.bigEndian_word16, same]

theorem Bytes.word32_inj {left right : UInt32} (same : word32 left = word32 right) :
    left = right := by
  apply UInt32.toNat_inj.mp
  rw [← Cbor.bigEndian_word32, ← Cbor.bigEndian_word32, same]

/-! ## Canonical forms -/

namespace Canon

/-- Induction on canonical forms, with sub-trees in lists as members. -/
@[elab_as_elim]
theorem induction {motive : Canon → Prop}
    (int : ∀ value, motive (.int value))
    (bool : ∀ value, motive (.bool value))
    (bound : ∀ depth slot, motive (.bound depth slot))
    (free : ∀ name, motive (.free name))
    (ifThen : ∀ test consequent, motive test → motive consequent →
      motive (.ifThen test consequent))
    (ifElse : ∀ test consequent alternative, motive test → motive consequent →
      motive alternative → motive (.ifElse test consequent alternative))
    (lambda : ∀ arity body, motive body → motive (.lambda arity body))
    (call : ∀ callee arguments, motive callee → (∀ argument ∈ arguments, motive argument) →
      motive (.call callee arguments))
    (define : ∀ name value, motive value → motive (.define name value))
    (program : ∀ forms, (∀ form ∈ forms, motive form) → motive (.program forms))
    (node : Canon) : motive node :=
  @Canon.rec motive (fun nodes => ∀ node ∈ nodes, motive node)
    int bool bound free ifThen ifElse lambda call define program
    (fun _ listed => absurd listed List.not_mem_nil)
    (fun _ _ first rest => List.forall_mem_cons.mpr ⟨first, rest⟩)
    node

mutual

/-- The lengths that a canonical form is serialized with. -/
def counts : Canon → List Nat
  | .int _ => []
  | .bool _ => []
  | .bound _ _ => []
  | .free name => [name.length]
  | .ifThen test consequent => counts test ++ counts consequent
  | .ifElse test consequent alternative =>
      counts test ++ (counts consequent ++ counts alternative)
  | .lambda arity body => arity :: counts body
  | .call callee arguments => counts callee ++ arguments.length :: countsAll arguments
  | .define name value => name.length :: counts value
  | .program forms => forms.length :: countsAll forms

/-- The same for canonical forms in a row. -/
def countsAll : List Canon → List Nat
  | [] => []
  | node :: rest => counts node ++ countsAll rest

end

/-- The number of counts that a word can hold. -/
def countRange : Nat := 4294967296

/-- No length is cut when a canonical form is serialized. An arity is one of them: it is written as a
word too, and as the number of the parameters of a lambda it is a natural number where an integer
would do, so that no negative arity has to be ruled out. -/
def Counted (node : Canon) : Prop :=
  ∀ count ∈ node.counts, count < countRange

section Reading

variable {rest tail : Bytes}

theorem encodeCount_append_inj {left right : Nat} (leftFits : left < countRange)
    (rightFits : right < countRange)
    (same : encodeCount left ++ rest = encodeCount right ++ tail) :
    left = right ∧ rest = tail := by
  obtain ⟨word, behind⟩ := List.append_inj same rfl
  refine ⟨?_, behind⟩
  have equal := congrArg UInt32.toNat (Bytes.word32_inj word)
  change (UInt32.ofNat left).toNat = (UInt32.ofNat right).toNat at equal
  rwa [UInt32.toNat_ofNat_of_lt' leftFits, UInt32.toNat_ofNat_of_lt' rightFits] at equal

theorem encodeName_append_inj {left right : Name} (leftFits : left.length < countRange)
    (rightFits : right.length < countRange)
    (same : encodeName left ++ rest = encodeName right ++ tail) : left = right ∧ rest = tail := by
  rw [encodeName, encodeName, List.append_assoc, List.append_assoc] at same
  obtain ⟨length, behind⟩ := encodeCount_append_inj leftFits rightFits same
  exact List.append_inj behind length

/-- The bytes of a node determine it, whatever follows them. -/
def ReadsBack (node : Canon) : Prop :=
  node.Counted → ∀ other : Canon, other.Counted → ∀ rest tail : Bytes,
    node.encodeNode ++ rest = other.encodeNode ++ tail → node = other ∧ rest = tail

theorem encodeNodes_append_inj {nodes others : List Canon} (each : ∀ node ∈ nodes, ReadsBack node)
    (counted : ∀ count ∈ countsAll nodes, count < countRange)
    (otherCounted : ∀ count ∈ countsAll others, count < countRange)
    (length : nodes.length = others.length)
    (same : encodeNodes nodes ++ rest = encodeNodes others ++ tail) :
    nodes = others ∧ rest = tail := by
  induction nodes generalizing others with
  | nil =>
      obtain rfl := List.length_eq_zero_iff.mp length.symm
      exact ⟨rfl, same⟩
  | cons node nodes ih =>
      obtain ⟨first, each⟩ := List.forall_mem_cons.mp each
      cases others with
      | nil => cases length
      | cons other others =>
          rw [countsAll, List.forall_mem_append] at counted otherCounted
          rw [encodeNodes, encodeNodes, List.append_assoc, List.append_assoc] at same
          obtain ⟨rfl, behind⟩ := first counted.1 other otherCounted.1 _ _ same
          obtain ⟨rfl, ended⟩ := ih each counted.2 otherCounted.2 (Nat.succ.inj length) behind
          exact ⟨rfl, ended⟩

/-- The flag behind the branches tells a conditional with one branch from one with two. -/
theorem readsBack_ifThen {test consequent : Canon} (ihTest : test.ReadsBack)
    (ihConsequent : consequent.ReadsBack) : (ifThen test consequent).ReadsBack := by
  intro counted other otherCounted rest tail same
  cases other with
  | ifThen otherTest otherConsequent =>
      simp only [Counted, counts, List.forall_mem_append] at counted otherCounted
      simp only [encodeNode, List.cons_append, List.append_assoc, List.cons.injEq] at same
      obtain ⟨rfl, behind⟩ := ihTest counted.1 _ otherCounted.1 _ _ same.2
      obtain ⟨rfl, ended⟩ := ihConsequent counted.2 _ otherCounted.2 _ _ behind
      exact ⟨rfl, (List.cons.inj ended).2⟩
  | ifElse otherTest otherConsequent otherAlternative =>
      simp only [Counted, counts, List.forall_mem_append] at counted otherCounted
      simp only [encodeNode, List.cons_append, List.append_assoc, List.cons.injEq] at same
      obtain ⟨-, behind⟩ := ihTest counted.1 _ otherCounted.1 _ _ same.2
      obtain ⟨-, ended⟩ := ihConsequent counted.2 _ otherCounted.2.1 _ _ behind
      simp at ended
  | _ => simp [encodeNode] at same

theorem readsBack_ifElse {test consequent alternative : Canon} (ihTest : test.ReadsBack)
    (ihConsequent : consequent.ReadsBack) (ihAlternative : alternative.ReadsBack) :
    (ifElse test consequent alternative).ReadsBack := by
  intro counted other otherCounted rest tail same
  cases other with
  | ifThen otherTest otherConsequent =>
      simp only [Counted, counts, List.forall_mem_append] at counted otherCounted
      simp only [encodeNode, List.cons_append, List.append_assoc, List.cons.injEq] at same
      obtain ⟨-, behind⟩ := ihTest counted.1 _ otherCounted.1 _ _ same.2
      obtain ⟨-, ended⟩ := ihConsequent counted.2.1 _ otherCounted.2 _ _ behind
      simp at ended
  | ifElse otherTest otherConsequent otherAlternative =>
      simp only [Counted, counts, List.forall_mem_append] at counted otherCounted
      simp only [encodeNode, List.cons_append, List.append_assoc, List.cons.injEq] at same
      obtain ⟨rfl, behind⟩ := ihTest counted.1 _ otherCounted.1 _ _ same.2
      obtain ⟨rfl, last⟩ := ihConsequent counted.2.1 _ otherCounted.2.1 _ _ behind
      obtain ⟨rfl, ended⟩ :=
        ihAlternative counted.2.2 _ otherCounted.2.2 _ _ (List.cons.inj last).2
      exact ⟨rfl, ended⟩
  | _ => simp [encodeNode] at same

theorem readsBack_call {callee : Canon} {arguments : List Canon} (ihCallee : callee.ReadsBack)
    (ihArguments : ∀ argument ∈ arguments, ReadsBack argument) :
    (call callee arguments).ReadsBack := by
  intro counted other otherCounted rest tail same
  cases other with
  | call otherCallee otherArguments =>
      simp only [Counted, counts, List.forall_mem_append, List.forall_mem_cons] at counted
      simp only [Counted, counts, List.forall_mem_append, List.forall_mem_cons] at otherCounted
      simp only [encodeNode, List.cons_append, List.append_assoc, List.cons.injEq] at same
      obtain ⟨rfl, behind⟩ := ihCallee counted.1 _ otherCounted.1 _ _ same.2
      obtain ⟨length, listed⟩ :=
        encodeCount_append_inj counted.2.1 otherCounted.2.1 behind
      obtain ⟨rfl, ended⟩ :=
        encodeNodes_append_inj ihArguments counted.2.2 otherCounted.2.2 length listed
      exact ⟨rfl, ended⟩
  | _ => simp [encodeNode] at same

theorem readsBack (node : Canon) : node.ReadsBack := by
  induction node using Canon.induction with
  | int value =>
      intro _ other _ rest tail same
      cases other with
      | int found =>
          obtain ⟨word, behind⟩ := List.append_inj (List.cons.inj same).2 rfl
          have equal := congrArg UInt32.toInt32 (Bytes.word32_inj word)
          rw [Int32.toInt32_toUInt32, Int32.toInt32_toUInt32] at equal
          exact ⟨congrArg _ equal, behind⟩
      | _ => simp [encodeNode] at same
  | bool value =>
      intro _ other _ rest tail same
      cases other with
      | bool found => cases value <;> cases found <;> simp_all [encodeNode]
      | _ => simp [encodeNode] at same
  | bound depth slot =>
      intro _ other _ rest tail same
      cases other with
      | bound foundDepth foundSlot =>
          obtain ⟨words, behind⟩ := List.append_inj (List.cons.inj same).2 rfl
          obtain ⟨first, second⟩ := List.append_inj words rfl
          rw [Bytes.word16_inj first, Bytes.word16_inj second]
          exact ⟨rfl, behind⟩
      | _ => simp [encodeNode] at same
  | free name =>
      intro counted other otherCounted rest tail same
      cases other with
      | free found =>
          simp only [Counted, counts, List.forall_mem_singleton] at counted otherCounted
          obtain ⟨rfl, behind⟩ :=
            encodeName_append_inj counted otherCounted (List.cons.inj same).2
          exact ⟨rfl, behind⟩
      | _ => simp [encodeNode] at same
  | ifThen test consequent ihTest ihConsequent =>
      exact readsBack_ifThen ihTest ihConsequent
  | ifElse test consequent alternative ihTest ihConsequent ihAlternative =>
      exact readsBack_ifElse ihTest ihConsequent ihAlternative
  | lambda arity body ih =>
      intro counted other otherCounted rest tail same
      cases other with
      | lambda otherArity otherBody =>
          simp only [Counted, counts, List.forall_mem_cons] at counted otherCounted
          simp only [encodeNode, List.cons_append, List.append_assoc, List.cons.injEq] at same
          obtain ⟨rfl, behind⟩ := encodeCount_append_inj counted.1 otherCounted.1 same.2
          obtain ⟨rfl, ended⟩ := ih counted.2 _ otherCounted.2 _ _ behind
          exact ⟨rfl, ended⟩
      | _ => simp [encodeNode] at same
  | call callee arguments ihCallee ihArguments =>
      exact readsBack_call ihCallee ihArguments
  | define name value ih =>
      intro counted other otherCounted rest tail same
      cases other with
      | define otherName otherValue =>
          simp only [Counted, counts, List.forall_mem_cons] at counted otherCounted
          simp only [encodeNode, List.cons_append, List.append_assoc, List.cons.injEq] at same
          obtain ⟨rfl, behind⟩ := encodeName_append_inj counted.1 otherCounted.1 same.2
          obtain ⟨rfl, ended⟩ := ih counted.2 _ otherCounted.2 _ _ behind
          exact ⟨rfl, ended⟩
      | _ => simp [encodeNode] at same
  | program forms ih =>
      intro counted other otherCounted rest tail same
      cases other with
      | program otherForms =>
          simp only [Counted, counts, List.forall_mem_cons] at counted otherCounted
          simp only [encodeNode, List.cons_append, List.append_assoc, List.cons.injEq] at same
          obtain ⟨length, listed⟩ := encodeCount_append_inj counted.1 otherCounted.1 same.2
          obtain ⟨rfl, ended⟩ :=
            encodeNodes_append_inj ih counted.2 otherCounted.2 length listed
          exact ⟨rfl, ended⟩
      | _ => simp [encodeNode] at same

end Reading

/-- Canonical forms whose lengths are not cut have different bytes if they differ. -/
theorem encode_inj {node other : Canon} (counted : node.Counted) (otherCounted : other.Counted)
    (same : node.encode = other.encode) : node = other := by
  refine (node.readsBack counted other otherCounted [] [] ?_).1
  rw [List.append_nil, List.append_nil]
  exact (List.cons.inj same).2

/-- The bytes of a node are no proper front of those of another one. -/
theorem eq_of_encodeNode_isPrefix {node other : Canon} (counted : node.Counted)
    (otherCounted : other.Counted) (front : node.encodeNode <+: other.encodeNode) :
    node = other := by
  obtain ⟨rest, whole⟩ := front
  refine (node.readsBack counted other otherCounted rest [] ?_).1
  rw [List.append_nil]
  exact whole

/-- Serialization tells canonical forms apart, and what one is serialized as is no proper front of
what another one is, be it with the version or without. Only the lengths that are written as words
have to fit them. -/
theorem encode_isPrefix_iff (node other : Canon) (counted : node.Counted)
    (otherCounted : other.Counted) :
    (node.encode = other.encode ↔ node = other) ∧
      (node.encode <+: other.encode ↔ node = other) ∧
      (node.encodeNode <+: other.encodeNode ↔ node = other) := by
  have nodes : node.encodeNode <+: other.encodeNode ↔ node = other :=
    ⟨eq_of_encodeNode_isPrefix counted otherCounted, fun same => same ▸ List.prefix_refl _⟩
  refine ⟨⟨encode_inj counted otherCounted, congrArg encode⟩, ?_, nodes⟩
  rw [encode, encode, List.cons_prefix_cons, nodes]
  exact and_iff_right rfl

/-- A conditional with one branch, which reads like the front of one with two. -/
theorem encode_isPrefix_iff_branches :
    Counted (.ifThen (.free [120]) (.call (.free [102]) [.bool true])) ∧
      Counted (.ifElse (.free [120]) (.call (.free [102]) [.bool true]) (.int 0)) ∧
      ¬ encode (.ifThen (.free [120]) (.call (.free [102]) [.bool true])) <+:
        encode (.ifElse (.free [120]) (.call (.free [102]) [.bool true]) (.int 0)) := by
  have one : Counted (.ifThen (.free [120]) (.call (.free [102]) [.bool true])) := by
    simp [Counted, counts, countsAll, countRange]
  have two : Counted (.ifElse (.free [120]) (.call (.free [102]) [.bool true]) (.int 0)) := by
    simp [Counted, counts, countsAll, countRange]
  refine ⟨one, two, fun front => ?_⟩
  have same := (encode_isPrefix_iff _ _ one two).2.1.mp front
  cases same

end Canon

end ClosureLisp
