import Mathlib.Data.List.Forall2
import BrokerConfig.Json.Reader
import BrokerConfig.Proofs.OrderedMaps
import BrokerConfig.Proofs.Spelling

/-!
Printed values are read back. Tokens build a tree when they lead from any point where a value may
come to the point where that tree has been delivered; the text of a value spells tokens that build
a tree of that value, provided that its numbers are integers and that it nests no deeper than the
reader allows.
-/

namespace BrokerConfig.Json

namespace Token

def joined : List (List Token) → List Token
  | [] => []
  | [piece] => piece
  | piece :: rest => piece ++ .comma :: joined rest

theorem Spells.separated {texts : List (List Char)} {pieces : List (List Token)}
    (h : List.Forall₂ Spells texts pieces) :
    Spells (separated texts) (Token.joined pieces) := by
  induction h with
  | nil => exact .nil
  | @cons text piece texts pieces hfirst hrest ih =>
    cases hrest with
    | nil => exact hfirst
    | cons hsecond hrest =>
      have hcomma : punctuation? ',' = some .comma := by decide
      exact hfirst.append (.punctuation hcomma ih) (endsRun_of_punctuation hcomma _)

theorem Spells.enclosed {left right : Char} {first last : Token} {chars : List Char}
    {tokens : List Token} (hleft : punctuation? left = some first)
    (hright : punctuation? right = some last) (h : Spells chars tokens) :
    Spells (left :: (chars ++ [right])) (first :: (tokens ++ [last])) :=
  .punctuation hleft
    (h.append (.punctuation hright .nil) (endsRun_of_punctuation hright _))

end Token

namespace Tree

open Token (joined)

structure Builds (tokens : List Token) (tree : Tree) : Prop where
  delivers : ∀ stack rest, (tokens ++ rest).foldlM Expect.step (.value stack) =
    rest.foldlM Expect.step (.deliver tree stack)
  opens : ∃ token more, tokens = token :: more ∧ token ≠ .closeArray

def BuildsMember (tokens : List Token) (member : List Nat × Tree) : Prop :=
  ∃ value, tokens = .scalar (.text member.1) :: .colon :: value ∧ Builds value member.2

theorem Builds.scalar (s : Scalar) : Builds [.scalar s] (.scalar s) where
  delivers _ _ := rfl
  opens := ⟨_, _, rfl, by simp⟩

theorem run_items {piece : List Token} {tree : Tree} {pieces : List (List Token)}
    {trees : List Tree} (h : Builds piece tree) (hrest : List.Forall₂ Builds pieces trees)
    (done : List Tree) (stack : List Frame) (rest : List Token) :
    (joined (piece :: pieces) ++ rest).foldlM Expect.step (.value (.items done :: stack)) =
      rest.foldlM Expect.step (.afterItem ((tree :: trees).reverse ++ done) stack) := by
  induction hrest generalizing piece tree done with
  | nil => exact h.delivers _ _
  | @cons second next pieces trees hsecond _ ih =>
    have hsplit : joined (piece :: second :: pieces) ++ rest =
        piece ++ .comma :: (joined (second :: pieces) ++ rest) := by
      simp [joined]
    rw [hsplit, h.delivers]
    show (joined (second :: pieces) ++ rest).foldlM Expect.step
      (.value (.items (tree :: done) :: stack)) = _
    rw [ih hsecond]
    simp

theorem run_members {piece : List Token} {member : List Nat × Tree} {pieces : List (List Token)}
    {members : List (List Nat × Tree)} (h : BuildsMember piece member)
    (hrest : List.Forall₂ BuildsMember pieces members) (done : List (List Nat × Tree))
    (stack : List Frame) (rest : List Token) :
    (joined (piece :: pieces) ++ rest).foldlM Expect.step (.nextKey done stack) =
      rest.foldlM Expect.step (.afterMember ((member :: members).reverse ++ done) stack) := by
  induction hrest generalizing piece member done with
  | nil =>
    obtain ⟨value, rfl, hvalue⟩ := h
    exact hvalue.delivers (.members done member.1 :: stack) rest
  | @cons second next pieces members hsecond _ ih =>
    obtain ⟨value, rfl, hvalue⟩ := h
    have hsplit : joined ((.scalar (.text member.1) :: .colon :: value) :: second :: pieces) ++
        rest = .scalar (.text member.1) :: .colon :: (value ++ .comma ::
          (joined (second :: pieces) ++ rest)) := by
      simp [joined]
    rw [hsplit]
    show (value ++ .comma :: (joined (second :: pieces) ++ rest)).foldlM Expect.step
      (.value (.members done member.1 :: stack)) = _
    rw [hvalue.delivers]
    show (joined (second :: pieces) ++ rest).foldlM Expect.step
      (.nextKey ((member.1, member.2) :: done) stack) = _
    rw [ih hsecond]
    simp

theorem Builds.array {pieces : List (List Token)} {trees : List Tree}
    (h : List.Forall₂ Builds pieces trees) :
    Builds (.openArray :: (joined pieces ++ [.closeArray])) (.array trees) where
  delivers stack rest := by
    cases h with
    | nil => rfl
    | @cons piece tree pieces trees hfirst hrest =>
      have hrun := run_items hfirst hrest [] stack (.closeArray :: rest)
      have hclose : Expect.step (.afterItem ((tree :: trees).reverse ++ []) stack) .closeArray =
          some (.deliver (.array (tree :: trees)) stack) := by
        simp [Expect.step]
      obtain ⟨token, more, rfl, htoken⟩ := hfirst.opens
      obtain ⟨others, hothers⟩ :
          ∃ others, joined ((token :: more) :: pieces) = token :: others := by
        cases pieces <;> exact ⟨_, rfl⟩
      have henter : Expect.step (.itemOrClose stack) token =
          Expect.step (.value (.items [] :: stack)) token := by
        cases token <;> first | rfl | exact absurd rfl htoken
      rw [List.foldlM_cons, hclose, hothers, List.cons_append, List.foldlM_cons, ← henter] at hrun
      rw [hothers, List.cons_append, List.append_assoc]
      exact hrun
  opens := ⟨_, _, rfl, by simp⟩

theorem Builds.object {pieces : List (List Token)} {members : List (List Nat × Tree)}
    (h : List.Forall₂ BuildsMember pieces members) :
    Builds (.openObject :: (joined pieces ++ [.closeObject])) (.object members) where
  delivers stack rest := by
    cases h with
    | nil => rfl
    | @cons piece member pieces members hfirst hrest =>
      have hrun := run_members hfirst hrest [] stack (.closeObject :: rest)
      have hclose : Expect.step (.afterMember ((member :: members).reverse ++ []) stack)
          .closeObject = some (.deliver (.object (member :: members)) stack) := by
        simp [Expect.step]
      obtain ⟨value, rfl, hvalue⟩ := hfirst
      obtain ⟨others, hothers⟩ : ∃ others,
          joined ((.scalar (.text member.1) :: .colon :: value) :: pieces) =
            .scalar (.text member.1) :: others := by
        cases pieces <;> exact ⟨_, rfl⟩
      rw [List.foldlM_cons, hclose, hothers] at hrun
      rw [hothers, List.cons_append, List.append_assoc]
      exact hrun
  opens := ⟨_, _, rfl, by simp⟩

theorem ofChars?_of_builds {chars : List Char} {tokens : List Token} {tree : Tree}
    (h : Token.Spells chars tokens) (k : Builds tokens tree) : ofChars? chars = some tree := by
  have hscan : Token.scan? chars = some tokens := by
    have hrun := h [] [] (by simp [Token.EndsRun])
    simpa [Token.scanFrom, Token.scan?, Token.Scan.start, Token.Scan.finish?] using hrun
  have hbuild := k.delivers [] []
  rw [List.append_nil] at hbuild
  rw [ofChars?, hscan, Option.bind_some, ofTokens?, hbuild]
  rfl

end Tree

def ReadAs {α : Type} (read? : Tree → Option α) (chars : List Char) (a : α) : Prop :=
  ∃ tokens tree, Token.Spells chars tokens ∧ Tree.Builds tokens tree ∧ read? tree = some a

theorem ReadAs.ofText? {α : Type} {read? : Tree → Option α} {chars : List Char} {a : α}
    (h : ReadAs read? chars a) : (Tree.ofText? (String.ofList chars)).bind read? = some a := by
  obtain ⟨tokens, tree, hspells, hbuilds, hread⟩ := h
  rw [Tree.ofText?, String.toList_ofList, Tree.ofChars?_of_builds hspells hbuilds, Option.bind_some,
    hread]

theorem readAs_quote {α : Type} {read? : Tree → Option α} {s : String} {a : α}
    (h : read? (.scalar (.text (pointsOf s))) = some a) : ReadAs read? (quote s) a := by
  refine ⟨_, _, ?_, .scalar _, h⟩
  simpa using Token.Spells.quote s .nil

namespace Value

inductive Integral : Value → Prop
  | null : Integral .null
  | bool (b : Bool) : Integral (.bool b)
  | integer {n : Int} (h : Number.InRange n) : Integral (.number (.integer n))
  | text (s : String) : Integral (.text s)
  | array {items : List Value} (h : ∀ item ∈ items, Integral item) : Integral (.array items)
  | object {members : List (String × Value)} (h : ∀ member ∈ members, Integral member.2) :
      Integral (.object members)

inductive Nests : Nat → Value → Prop
  | null {depth : Nat} : Nests depth .null
  | bool {depth : Nat} (b : Bool) : Nests depth (.bool b)
  | number {depth : Nat} (n : Number) : Nests depth (.number n)
  | text {depth : Nat} (s : String) : Nests depth (.text s)
  | array {depth : Nat} {items : List Value} (h : ∀ item ∈ items, Nests depth item) :
      Nests (depth + 1) (.array items)
  | object {depth : Nat} {members : List (String × Value)}
      (distinct : (members.map Prod.fst).Nodup) (h : ∀ member ∈ members, Nests depth member.2) :
      Nests (depth + 1) (.object members)

def ReadBack (depth : Nat) (v : Value) : Prop := ReadAs (ofTree? depth) v.chars v

variable {depth : Nat}

theorem readBack_text (depth : Nat) (s : String) : ReadBack depth (.text s) :=
  readAs_quote (by simp [ofTree?, ofScalar?, textOfPoints?_pointsOf])

theorem readBack_word {word : List Char} {scalar : Scalar} {v : Value} (hchars : v.chars = word)
    (hne : word ≠ []) (hrun : word.any Token.Scan.endsRun = false)
    (htoken : Token.ofRun? word = some (.scalar scalar)) (hvalue : ofScalar? scalar = some v) :
    ReadBack depth v := by
  refine ⟨[.scalar scalar], .scalar scalar, ?_, .scalar _, ?_⟩
  · rw [hchars]
    exact .run hne (fun c hc => Bool.eq_false_iff.2 (List.any_eq_false.1 hrun c hc)) htoken
  · rw [ofTree?, hvalue]

theorem readBack_integer {n : Int} (h : Number.InRange n) :
    ReadBack depth (.number (.integer n)) := by
  refine ⟨_, _, Token.Spells.integer n, .scalar _, ?_⟩
  rw [ofTree?, ofScalar?, Number.ofLiteral?_whole h, Option.map_some]

theorem pieces_of_items {items : List Value} (h : ∀ item ∈ items, ReadBack depth item) :
    ∃ pieces trees, List.Forall₂ Token.Spells (itemTexts items) pieces ∧
      List.Forall₂ Tree.Builds pieces trees ∧ ofItems? depth trees = some items := by
  induction items with
  | nil => exact ⟨[], [], .nil, .nil, rfl⟩
  | cons item rest ih =>
    obtain ⟨tokens, tree, hspells, hbuilds, htree⟩ := h item (by simp)
    obtain ⟨pieces, trees, hpieces, htrees, hrest⟩ := ih fun item hi => h item (by simp [hi])
    refine ⟨tokens :: pieces, tree :: trees, .cons hspells hpieces, .cons hbuilds htrees, ?_⟩
    rw [ofItems?, htree, hrest]

theorem spells_member (key : String) {v : Value} {tokens : List Token}
    (h : Token.Spells v.chars tokens) :
    Token.Spells (quote key ++ ':' :: v.chars)
      (.scalar (.text (pointsOf key)) :: .colon :: tokens) :=
  .quote key (.punctuation (by decide) h)

theorem spells_object {members : List (String × Value)} {pieces : List (List Token)}
    (h : List.Forall₂ Token.Spells (memberTexts members) pieces) :
    Token.Spells (Value.object members).chars
      (.openObject :: (Token.joined pieces ++ [.closeObject])) :=
  .enclosed (by decide) (by decide) (.separated h)

theorem pieces_of_members {members : List (String × Value)}
    (h : ∀ member ∈ members, ReadBack depth member.2) :
    ∃ pieces trees, List.Forall₂ Token.Spells (memberTexts members) pieces ∧
      List.Forall₂ Tree.BuildsMember pieces trees ∧ ofMembers? depth trees = some members := by
  induction members with
  | nil => exact ⟨[], [], .nil, .nil, rfl⟩
  | cons member rest ih =>
    obtain ⟨key, v⟩ := member
    obtain ⟨tokens, tree, hspells, hbuilds, htree⟩ := h (key, v) (by simp)
    obtain ⟨pieces, trees, hpieces, htrees, hrest⟩ := ih fun member hm => h member (by simp [hm])
    refine ⟨_ :: pieces, (pointsOf key, tree) :: trees, .cons (spells_member key hspells) hpieces,
      .cons ⟨tokens, rfl, hbuilds⟩ htrees, ?_⟩
    rw [ofMembers?, textOfPoints?_pointsOf, htree, hrest]

theorem Nests.readBack {v : Value} (h : Nests depth v) (hnumbers : v.Integral) :
    ReadBack depth v := by
  induction h with
  | null => exact readBack_word rfl (List.cons_ne_nil _ _) rfl rfl rfl
  | bool b => cases b <;> exact readBack_word rfl (List.cons_ne_nil _ _) rfl rfl rfl
  | number n =>
    cases hnumbers with
    | integer hrange => exact readBack_integer hrange
  | text s => exact readBack_text _ s
  | @array depth items h ih =>
    cases hnumbers with
    | array hitems =>
      obtain ⟨pieces, trees, hpieces, htrees, hvalues⟩ :=
        pieces_of_items fun item hi => ih item hi (hitems item hi)
      refine ⟨_, _, ?_, .array htrees, ?_⟩
      · exact .enclosed (by decide) (by decide) (.separated hpieces)
      · simp [ofTree?, hvalues]
  | @object depth members distinct h ih =>
    cases hnumbers with
    | object hmembers =>
      obtain ⟨pieces, trees, hpieces, htrees, hvalues⟩ :=
        pieces_of_members fun member hm => ih member hm (hmembers member hm)
      have hkept : (OrderedMap.ofList members).entries = members :=
        congrArg OrderedMap.entries (OrderedMap.ofList_entries ⟨members, distinct⟩)
      refine ⟨_, _, spells_object hpieces, .object htrees, ?_⟩
      simp [ofTree?, hvalues, hkept]

theorem of_ofItems? {trees : List Tree} {items : List Value}
    (h : ofItems? depth trees = some items) :
    ∀ item ∈ items, ∃ tree, ofTree? depth tree = some item := by
  induction trees generalizing items with
  | nil =>
    cases h
    exact fun _ hi => absurd hi List.not_mem_nil
  | cons tree rest ih =>
    rw [ofItems?] at h
    split at h
    · rename_i v vs htree hrest
      cases h
      intro item hi
      rcases List.mem_cons.1 hi with rfl | hi
      · exact ⟨tree, htree⟩
      · exact ih hrest item hi
    · cases h

theorem of_ofMembers? {trees : List (List Nat × Tree)} {members : List (String × Value)}
    (h : ofMembers? depth trees = some members) :
    ∀ member ∈ members, ∃ tree, ofTree? depth tree = some member.2 := by
  induction trees generalizing members with
  | nil =>
    cases h
    exact fun _ hm => absurd hm List.not_mem_nil
  | cons first rest ih =>
    rw [ofMembers?] at h
    split at h
    · rename_i key v ms hkey htree hrest
      cases h
      intro member hm
      rcases List.mem_cons.1 hm with rfl | hm
      · exact ⟨first.2, htree⟩
      · exact ih hrest member hm
    · cases h

theorem nests_of_ofScalar? {s : Scalar} {v : Value} (h : ofScalar? s = some v) :
    Nests depth v := by
  cases s with
  | null =>
    cases h
    exact .null
  | bool b =>
    cases h
    exact .bool b
  | number literal =>
    obtain ⟨n, -, rfl⟩ := Option.map_eq_some_iff.1 h
    exact .number n
  | text points =>
    obtain ⟨s, -, rfl⟩ := Option.map_eq_some_iff.1 h
    exact .text s

theorem nests_of_ofTree? {tree : Tree} {v : Value} (h : ofTree? depth tree = some v) :
    Nests depth v := by
  induction depth generalizing tree v with
  | zero =>
    cases tree with
    | scalar s => exact nests_of_ofScalar? (by simpa [ofTree?] using h)
    | array items => simp [ofTree?] at h
    | object members => simp [ofTree?] at h
  | succ depth ih =>
    cases tree with
    | scalar s => exact nests_of_ofScalar? (by simpa [ofTree?] using h)
    | array items =>
      rw [ofTree?, if_neg (Nat.succ_ne_zero depth), Option.map_eq_some_iff] at h
      obtain ⟨values, hvalues, rfl⟩ := h
      refine .array fun item hi => ?_
      obtain ⟨tree, htree⟩ := of_ofItems? hvalues item hi
      exact ih htree
    | object members =>
      rw [ofTree?, if_neg (Nat.succ_ne_zero depth), Option.map_eq_some_iff] at h
      obtain ⟨entries, hentries, rfl⟩ := h
      refine .object (OrderedMap.ofList entries).distinct fun member hm => ?_
      obtain ⟨tree, htree⟩ := of_ofMembers? hentries member (OrderedMap.mem_entries_ofList hm)
      exact ih htree

end Value

end BrokerConfig.Json
