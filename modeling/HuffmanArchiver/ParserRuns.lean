import HuffmanArchiver.Argparse

/-! What the argument parser has recorded after any number of words, for arguments that take no value, or
one value and have no default. The words that it goes through are those of a grammar. -/
namespace HuffmanArchiver.ParserRuns
open Machine Argparse ArgumentParser

structure Entry where
  position : ℕ
  name : Word
  value : Option Value
  deriving DecidableEq

def recordUse (a : Argument) (e : Entry) : Argument :=
  {a with mIsUsed := true, mUsedName := e.name, mValues := a.mValues ++ [e.value]}

def recordEntry (p : ArgumentParser) (e : Entry) : ArgumentParser :=
  {p with mOptionalArguments := p.mOptionalArguments.modify e.position (fun a => recordUse a e)}

def recorded (p : ArgumentParser) (es : List Entry) : ArgumentParser := es.foldl recordEntry p

structure PlainArgument (a : Argument) : Prop where
  unused : a.mIsUsed = false
  empty : a.mValues = []
  once : a.mIsRepeatable = false
  takes : a.mNumArgs = 0 ∨ (a.mNumArgs = 1 ∧ a.mDefaultValue = none)

def Plain (p : ArgumentParser) : Prop := ∀ a ∈ p.mOptionalArguments, PlainArgument a

inductive Takes (a : Argument) : List Word → Option Value → List Word → Prop where
  | flag {rest : List Word} (none_needed : a.mNumArgs = 0) : Takes a rest a.mImplicitValue rest
  | value {word : Word} {rest : List Word} (one_needed : a.mNumArgs = 1) (positional : isPositional word = true) :
      Takes a (word :: rest) (some (.string word)) rest

inductive Letters (p : ArgumentParser) : List Char → List Word → List Entry → List Word → Prop where
  | nil {rest : List Word} : Letters p [] rest [] rest
  | cons {c : Char} {letters : List Char} {i : ℕ} {a : Argument} {rest rest' rest'' : List Word} {v : Option Value}
      {es : List Entry} (found : p.find ['-',c] = some i) (there : p.mOptionalArguments[i]? = some a)
        (takes : Takes a rest v rest')
      (onward : Letters p letters rest' es rest'') : Letters p (c :: letters) rest (⟨i,['-',c],v⟩ :: es) rest''

inductive Reads (p : ArgumentParser) : List Word → List Entry → Prop where
  | nil : Reads p [] []
  | named {word : Word} {i : ℕ} {a : Argument} {rest rest' : List Word} {v : Option Value} {es : List Entry}
      (dashed : isPositional word = false) (found : p.find word = some i) (later : 1 < i)
      (there : p.mOptionalArguments[i]? = some a) (takes : Takes a rest v rest') (onward : Reads p rest' es) :
      Reads p (word :: rest) (⟨i,word,v⟩ :: es)
  | compound {c : Char} {letters : List Char} {rest rest' : List Word} {es es' : List Entry}
      (dashed : isPositional ('-' :: c :: letters) = false) (unnamed : p.find ('-' :: c :: letters) = none)
        (short : c ≠ '-')
      (taken : Letters p (c :: letters) rest es rest') (onward : Reads p rest' es') :
      Reads p (('-' :: c :: letters) :: rest) (es ++ es')

variable {p : ArgumentParser}

theorem recordedAppend (es : List Entry) (e : Entry) : recordEntry (recorded p es) e = recorded p (es ++ [e]) := by
  rw [recorded,recorded,List.foldl_append]
  rfl

@[simp] theorem recordedMap (es : List Entry) : (recorded p es).mArgumentMap = p.mArgumentMap := by
  induction es using List.reverseRecOn with
  | nil => rfl
  | append_singleton es e ih => rw [← recordedAppend]; exact ih

@[simp] theorem recordedFind (es : List Entry) (name : Word) : (recorded p es).find name = p.find name := by
  rw [find,find,recordedMap]

theorem recordedAt (es : List Entry) (i : ℕ) :
    (recorded p es).mOptionalArguments[i]? =
      p.mOptionalArguments[i]?.map ((es.filter (fun e => e.position = i)).foldl recordUse) := by
  induction es using List.reverseRecOn with
  | nil => simp [recorded]
  | append_singleton es e ih =>
    rw [← recordedAppend,recordEntry]
    by_cases here : e.position = i
    · subst here
      have last : [e].filter (fun d => d.position = e.position) = [e] := by simp
      simp only [List.getElem?_modify_eq,ih,List.filter_append,last,List.foldl_append,Option.map_eq_map,
        Option.map_map]
      rfl
    · have last : [e].filter (fun d => d.position = i) = [] := by simp [here]
      simp only [List.getElem?_modify_ne _ _ here,ih,List.filter_append,last,List.append_nil]

structure SameKind (a b : Argument) : Prop where
  repeatable : b.mIsRepeatable = a.mIsRepeatable
  numArgs : b.mNumArgs = a.mNumArgs
  defaultValue : b.mDefaultValue = a.mDefaultValue
  implicitValue : b.mImplicitValue = a.mImplicitValue

theorem recordsKeep (a : Argument) (es : List Entry) :
    SameKind a (es.foldl recordUse a) ∧ ((es.foldl recordUse a).mIsUsed = true ↔ a.mIsUsed = true ∨ es ≠ []) := by
  induction es using List.reverseRecOn with
  | nil => simp; constructor <;> rfl
  | append_singleton es e ih =>
    rw [List.foldl_append]
    exact ⟨⟨ih.1.repeatable,ih.1.numArgs,ih.1.defaultValue,ih.1.implicitValue⟩,by simp [recordUse]⟩

theorem positionalFirst {w : Word} {rest : List Word} : ((w :: rest).take 1).any isOptional = !isPositional w := by
  simp [isOptional]

theorem consumeArgument {a b : Argument} (plain : PlainArgument a) (same : SameKind a b)
    {rest rest' : List Word} {name : Word}
    {after : Argument} : b.consume rest name = .ok (after,rest') ↔
      b.mIsUsed = false ∧ ∃ v, Takes a rest v rest' ∧
        after = {b with mIsUsed := true, mUsedName := name, mValues := b.mValues ++ [v]} := by
  cases used : b.mIsUsed with
  | true => simp [Argument.consume,same.repeatable,plain.once,used]
  | false =>
    rcases plain.takes with flag | ⟨one,undefaulted⟩
    · simp only [Argument.consume,used,same.numArgs,flag,same.implicitValue,Bool.and_false,
        Bool.false_eq_true,if_false,if_true,
        Except.ok.injEq,Prod.mk.injEq,true_and]
      constructor
      · rintro ⟨rfl,rfl⟩
        exact ⟨_,.flag flag,rfl⟩
      · rintro ⟨v,takes,rfl⟩
        cases takes with
        | flag _ => exact ⟨rfl,rfl⟩
        | value one _ => rw [flag] at one; contradiction
    · have nonzero : ¬ (a.mNumArgs = 0) := by omega
      cases rest with
      | nil =>
        simp only [Argument.consume,used,same.numArgs,one,same.defaultValue,undefaulted]
        constructor
        · intro ok
          simp at ok
        · rintro ⟨_,v,takes,_⟩
          cases takes with
          | flag zero => contradiction
      | cons w rest =>
        simp only [Argument.consume,used,same.numArgs,one,positionalFirst]
        cases positional : isPositional w with
        | false =>
          constructor
          · intro ok
            simp at ok
          · rintro ⟨_,v,takes,_⟩
            cases takes with
            | flag zero => contradiction
            | value _ other => rw [positional] at other; contradiction
        | true =>
          simp
          constructor
          · rintro ⟨rfl,rfl⟩
            exact ⟨_,.value one positional,rfl⟩
          · rintro ⟨v,takes,rfl⟩
            cases takes with
            | flag zero => contradiction
            | value _ _ => exact ⟨rfl,rfl⟩

def positions (es : List Entry) : List ℕ := es.map Entry.position

@[simp] theorem positionsAppend (es es' : List Entry) :
    positions (es ++ es') = positions es ++ positions es' := List.map_append

theorem filterNone {es : List Entry} {i : ℕ} : es.filter (fun e => e.position = i) = [] ↔ i ∉ positions es := by
  rw [List.filter_eq_nil_iff,positions,List.mem_map]
  simp

theorem freeFirst {es es' : List Entry} {e : Entry} (distinct : (positions (es ++ e :: es')).Nodup) :
    e.position ∉ positions es := by
  rw [positionsAppend] at distinct
  intro inside
  exact (List.nodup_append.mp distinct).2.2 _ inside _ (by simp [positions]) rfl

theorem argumentAt {es : List Entry} (distinct : (positions es).Nodup) {i : ℕ} {a : Argument}
    (there : p.mOptionalArguments[i]? = some a) :
    (i ∉ positions es ∧ (recorded p es).mOptionalArguments[i]? = some a) ∨
      ∃ e ∈ es, e.position = i ∧ (recorded p es).mOptionalArguments[i]? = some (recordUse a e) := by
  have at_i := recordedAt (p := p) es i
  rw [there,Option.map_some] at at_i
  by_cases inside : i ∈ positions es
  · obtain ⟨e,he,rfl⟩ := List.mem_map.mp inside
    right
    refine ⟨e,he,rfl,?_⟩
    obtain ⟨front,back,rfl⟩ := List.append_of_mem he
    have before := freeFirst distinct
    have behind : e.position ∉ positions back := by
      rw [positionsAppend] at distinct
      exact (List.nodup_cons.mp distinct.of_append_right).1
    have own : [e].filter (fun d => d.position = e.position) = [e] := by simp
    rw [List.filter_append,filterNone.mpr before,← List.singleton_append,List.filter_append,own,
      filterNone.mpr behind] at at_i
    exact at_i
  · left
    rw [filterNone.mpr inside] at at_i
    exact ⟨inside,at_i⟩

def Valid (p : ArgumentParser) (i : ℕ) : Prop := ∃ a, p.mOptionalArguments[i]? = some a ∧ a.validate = .ok ()

theorem validateAllIff {entries : List (Word × ℕ)} :
    p.validateAll entries = .ok () ↔ ∀ entry ∈ entries, Valid p entry.2 := by
  induction entries with
  | nil => simp [validateAll]
  | cons entry entries ih =>
    rw [List.forall_mem_cons,← ih,validateAll]
    cases there : p.mOptionalArguments[entry.2]? with
    | none => simp [Valid,there]
    | some a =>
      simp only [Valid,there,goesOnIff,Option.some.injEq,exists_eq_left']
      exact ⟨fun ⟨_,fine,rest⟩ => ⟨fine,rest⟩,fun ⟨fine,rest⟩ => ⟨(),fine,rest⟩⟩

theorem lookAt {es : List Entry} (distinct : (positions es).Nodup) {i : ℕ} {a : Argument}
    (there : p.mOptionalArguments[i]? = some a)
    (Q : Argument → Prop) : (∃ b, (recorded p es).mOptionalArguments[i]? = some b ∧ Q b) ↔
      (i ∉ positions es ∧ Q a) ∨ ∃ e ∈ es, e.position = i ∧ Q (recordUse a e) := by
  rcases argumentAt distinct there with ⟨unused,at_i⟩ | ⟨e,he,here,at_i⟩
  · constructor
    · rintro ⟨b,same,holds⟩
      cases Option.some.inj (at_i.symm.trans same)
      exact .inl ⟨unused,holds⟩
    · rintro (⟨_,holds⟩ | ⟨e,he,here,_⟩)
      · exact ⟨a,at_i,holds⟩
      · exact absurd (List.mem_map.mpr ⟨e,he,here⟩) unused
  · constructor
    · rintro ⟨b,same,holds⟩
      cases Option.some.inj (at_i.symm.trans same)
      exact .inr ⟨e,he,here,holds⟩
    · rintro (⟨unused,_⟩ | ⟨e',he',here',holds⟩)
      · exact absurd (List.mem_map.mpr ⟨e,he,here⟩) unused
      · cases List.inj_on_of_nodup_map distinct he he' (here.trans here'.symm)
        exact ⟨_,at_i,holds⟩

theorem getAt {α : Type} {cast : Value → Option α} {es : List Entry} (distinct : (positions es).Nodup)
    {i : ℕ} {a : Argument}
    {name : Word} (found : p.find name = some i) (there : p.mOptionalArguments[i]? = some a) {x : α} :
    (recorded p es).get cast name = .ok x ↔
      (i ∉ positions es ∧ a.get cast = .ok x) ∨ ∃ e ∈ es, e.position = i ∧ (recordUse a e).get cast = .ok x := by
  rw [← lookAt distinct there (fun b => b.get cast = .ok x)]
  simp only [ArgumentParser.get,ArgumentParser.index,recordedFind,found]
  cases (recorded p es).mOptionalArguments[i]? with
  | none => simp
  | some b => simp

theorem recordedSet {es : List Entry} {i : ℕ} {b : Argument}
    (at_i : (recorded p es).mOptionalArguments[i]? = some b)
    (name : Word) (v : Option Value) : recorded p (es ++ [⟨i,name,v⟩]) =
      {recorded p es with
        mOptionalArguments := (recorded p es).mOptionalArguments.set i (recordUse b ⟨i,name,v⟩)} := by
  rw [← recordedAppend,recordEntry]
  simp only [List.modify_eq_set_getElem?,at_i]
  rfl

theorem takesShortens {a : Argument} {rest rest' : List Word} {v : Option Value} (takes : Takes a rest v rest') :
    rest'.length ≤ rest.length := by
  cases takes with
  | flag _ => exact le_refl _
  | value _ _ => exact Nat.le_succ _

theorem lettersShorten {letters : List Char} {rest rest' : List Word} {es : List Entry}
    (taken : Letters p letters rest es rest') :
    rest'.length ≤ rest.length := by
  induction taken with
  | nil => exact le_refl _
  | cons _ _ takes _ ih => exact ih.trans (takesShortens takes)

theorem usedOnce {es : List Entry} {e : Entry} (distinct : (positions es).Nodup)
    (free : e.position ∉ positions es) :
    (positions (es ++ [e])).Nodup := by
  rw [positionsAppend]
  exact distinct.append (by simp [positions]) (by simpa [positions] using free)

theorem compoundForm {word : Word} : (1 < word.length ∧ word.head? = some '-' ∧ word[1]? ≠ some '-') ↔
    ∃ c letters, word = '-' :: c :: letters ∧ c ≠ '-' := by
  constructor
  · rintro ⟨long,dash,other⟩
    match word with
    | [] => simp at long
    | [_] => simp at long
    | d :: c :: letters =>
      cases Option.some.inj dash
      exact ⟨c,letters,rfl,by simpa using other⟩
  · rintro ⟨c,letters,rfl,dash⟩
    simpa using dash

section Plain
variable (plain : Plain p)
include plain

theorem consumeSpec {es : List Entry} {i : ℕ} {rest rest' : List Word} {name : Word} {p' : ArgumentParser} :
    (recorded p es).consume i rest name = .ok (p',rest') ↔ i ∉ positions es ∧
      ∃ a v, p.mOptionalArguments[i]? = some a ∧ Takes a rest v rest' ∧ p' = recorded p (es ++ [⟨i,name,v⟩]) := by
  have at_i := recordedAt (p := p) es i
  cases there : p.mOptionalArguments[i]? with
  | none =>
    rw [there,Option.map_none] at at_i
    simp [ArgumentParser.consume,at_i]
  | some a =>
    rw [there,Option.map_some] at at_i
    obtain ⟨same,used⟩ := recordsKeep a (es.filter (fun e => e.position = i))
    have fresh := plain a (List.mem_of_getElem? there)
    have unused : (List.foldl recordUse a (es.filter (fun e => e.position = i))).mIsUsed = false ↔
      i ∉ positions es := by
      rw [← filterNone,← Bool.not_eq_true,used,fresh.unused]
      simp
    simp only [ArgumentParser.consume,at_i,goesOnIff,Prod.exists,consumeArgument fresh same,unused]
    constructor
    · rintro ⟨after,rest₁,⟨free,v,takes,rfl⟩,last⟩
      cases Except.ok.inj last
      exact ⟨free,a,v,rfl,takes,(recordedSet at_i name v).symm⟩
    · rintro ⟨free,a',v,same',takes,rfl⟩
      cases Option.some.inj same'
      exact ⟨_,rest',⟨free,v,takes,rfl⟩,by rw [recordedSet at_i name v]; rfl⟩

theorem lettersSpec {letters : List Char} {es : List Entry} {rest rest' : List Word} {p' : ArgumentParser}
    (distinct : (positions es).Nodup) : (recorded p es).parseCompound letters rest = .ok (p',rest') ↔
      ∃ es', Letters p letters rest es' rest' ∧ (positions (es ++ es')).Nodup ∧ p' = recorded p (es ++ es') := by
  induction letters generalizing es rest with
  | nil =>
    constructor
    · intro ok
      cases Except.ok.inj ok
      exact ⟨[],.nil,by simpa using distinct,by rw [List.append_nil]⟩
    · rintro ⟨es',taken,_,rfl⟩
      cases taken
      rw [List.append_nil]
      rfl
  | cons c letters ih =>
    rw [parseCompound,recordedFind]
    constructor
    · intro ok
      cases found : p.find ['-',c] with
      | none => rw [found] at ok; contradiction
      | some i =>
        simp only [found,goesOnIff,Prod.exists,consumeSpec plain] at ok
        obtain ⟨p₁,rest₁,⟨free,a,v,there,takes,rfl⟩,onward⟩ := ok
        obtain ⟨es',taken,distinct',rfl⟩ := (ih (usedOnce distinct free)).mp onward
        rw [List.append_assoc] at distinct'
        exact ⟨_,.cons found there takes taken,distinct',by rw [List.append_assoc]; rfl⟩
    · rintro ⟨es',taken,distinct',rfl⟩
      cases taken with
      | @cons _ _ i a _ rest₁ _ v es'' found there takes onward =>
        have free := freeFirst distinct'
        simp only [found,goesOnIff,Prod.exists,consumeSpec plain]
        refine ⟨_,rest₁,⟨free,a,v,there,takes,rfl⟩,(ih (usedOnce distinct free)).mpr ⟨es'',onward,?_,?_⟩⟩
        · rw [List.append_assoc]
          exact distinct'
        · rw [List.append_assoc]
          rfl

section Loop
variable {fuel : ℕ} {es : List Entry} {p' : ArgumentParser} {word : Word} {rest : List Word}

omit plain in
theorem loopPositional (positional : isPositional word = true) :
    (recorded p es).parseLoop (fuel+1) (word :: rest) ≠ .ok p' := by
  simp [parseLoop,positional]

theorem loopNamed (dashed : isPositional word = false) {i : ℕ} (found : p.find word = some i) :
    (recorded p es).parseLoop (fuel+1) (word :: rest) = .ok p' ↔ 1 < i ∧ i ∉ positions es ∧
      ∃ a v rest₁, p.mOptionalArguments[i]? = some a ∧ Takes a rest v rest₁ ∧
        (recorded p (es ++ [⟨i,word,v⟩])).parseLoop fuel rest₁ = .ok p' := by
  rw [parseLoop,recordedFind]
  simp only [dashed,found,Bool.false_eq_true,if_false]
  constructor
  · intro ok
    split at ok
    · contradiction
    · split at ok
      · contradiction
      · simp only [goesOnIff,Prod.exists,consumeSpec plain] at ok
        obtain ⟨p₁,rest₁,⟨free,a,v,there,takes,rfl⟩,onward⟩ := ok
        exact ⟨by omega,free,a,v,rest₁,there,takes,onward⟩
  · rintro ⟨later,free,a,v,rest₁,there,takes,onward⟩
    simp only [show ¬ i = 0 by omega,show ¬ i = 1 by omega,if_false,goesOnIff,Prod.exists,consumeSpec plain]
    exact ⟨_,rest₁,⟨free,a,v,there,takes,rfl⟩,onward⟩

theorem loopCompound (dashed : isPositional word = false) (unnamed : p.find word = none)
    (distinct : (positions es).Nodup) :
    (recorded p es).parseLoop (fuel+1) (word :: rest) = .ok p' ↔
      ∃ c letters es₁ rest₁, word = '-' :: c :: letters ∧ c ≠ '-' ∧ Letters p (c :: letters) rest es₁ rest₁ ∧
        (positions (es ++ es₁)).Nodup ∧ (recorded p (es ++ es₁)).parseLoop fuel rest₁ = .ok p' := by
  rw [parseLoop,recordedFind]
  simp only [dashed,unnamed,Bool.false_eq_true,if_false]
  constructor
  · intro ok
    split at ok
    · rename_i form
      obtain ⟨c,letters,rfl,dash⟩ := compoundForm.mp form
      simp only [goesOnIff,Prod.exists,lettersSpec plain distinct] at ok
      obtain ⟨p₁,rest₁,⟨es₁,taken,distinct₁,rfl⟩,onward⟩ := ok
      exact ⟨c,letters,es₁,rest₁,rfl,dash,taken,distinct₁,onward⟩
    · contradiction
  · rintro ⟨c,letters,es₁,rest₁,rfl,dash,taken,distinct₁,onward⟩
    simp only [if_pos (compoundForm.mpr ⟨c,letters,rfl,dash⟩),goesOnIff,Prod.exists,lettersSpec plain distinct]
    exact ⟨_,rest₁,⟨es₁,taken,distinct₁,rfl⟩,onward⟩

omit plain in
theorem loopNothing (distinct : (positions es).Nodup) (ok : (recorded p es).parseLoop fuel [] = .ok p') :
    ∃ es', Reads p [] es' ∧ (positions (es ++ es')).Nodup ∧ p' = recorded p (es ++ es') := by
  have same : p' = recorded p es := by cases fuel <;> exact (Except.ok.inj ok).symm
  rw [same]
  exact ⟨[],.nil,by rwa [List.append_nil],by rw [List.append_nil]⟩

theorem loopSound {words : List Word} (distinct : (positions es).Nodup)
    (ok : (recorded p es).parseLoop fuel words = .ok p') :
    ∃ es', Reads p words es' ∧ (positions (es ++ es')).Nodup ∧ p' = recorded p (es ++ es') := by
  induction fuel generalizing words es with
  | zero =>
    cases words with
    | nil => exact loopNothing distinct ok
    | cons word rest => contradiction
  | succ fuel ih =>
    cases words with
    | nil => exact loopNothing distinct ok
    | cons word rest =>
      cases dashed : isPositional word with
      | true => exact absurd ok (loopPositional dashed)
      | false =>
        cases found : p.find word with
        | some i =>
          obtain ⟨later,free,a,v,rest₁,there,takes,onward⟩ := (loopNamed plain dashed found).mp ok
          obtain ⟨es',reads,distinct',rfl⟩ := ih (usedOnce distinct free) onward
          rw [List.append_assoc] at distinct'
          exact ⟨_,.named dashed found later there takes reads,distinct',by rw [List.append_assoc]; rfl⟩
        | none =>
          obtain ⟨c,letters,es₁,rest₁,rfl,dash,taken,distinct₁,onward⟩ :=
            (loopCompound plain dashed found distinct).mp ok
          obtain ⟨es',reads,distinct',rfl⟩ := ih distinct₁ onward
          rw [List.append_assoc] at distinct'
          exact ⟨_,.compound dashed found dash taken reads,distinct',by rw [List.append_assoc]⟩

theorem loopComplete {words : List Word} {es' : List Entry} (reads : Reads p words es')
    (enough : words.length ≤ fuel)
    (distinct : (positions (es ++ es')).Nodup) :
      (recorded p es).parseLoop fuel words = .ok (recorded p (es ++ es')) := by
  induction reads generalizing fuel es with
  | nil =>
    rw [List.append_nil]
    cases fuel <;> rfl
  | @named word i a rest rest₁ v es'' dashed found later there takes onward ih =>
    obtain ⟨fuel,rfl⟩ : ∃ more, fuel = more+1 := ⟨fuel-1,by simp at enough; omega⟩
    have short := (takesShortens takes).trans (Nat.le_of_succ_le_succ enough)
    have free := freeFirst distinct
    have same : es ++ (⟨i,word,v⟩ :: es'') = es ++ [⟨i,word,v⟩] ++ es'' := by rw [List.append_assoc]; rfl
    rw [same] at distinct ⊢
    exact (loopNamed plain dashed found).mpr ⟨later,free,a,v,rest₁,there,takes,ih short distinct⟩
  | @compound c letters rest rest₁ es₁ es'' dashed unnamed dash taken onward ih =>
    obtain ⟨fuel,rfl⟩ : ∃ more, fuel = more+1 := ⟨fuel-1,by simp at enough; omega⟩
    have short := (lettersShorten taken).trans (Nat.le_of_succ_le_succ enough)
    rw [← List.append_assoc] at distinct ⊢
    have distinct₁ : (positions (es ++ es₁)).Nodup := by
      rw [positionsAppend] at distinct
      exact distinct.of_append_left
    have distinct₀ : (positions es).Nodup := by
      rw [positionsAppend] at distinct₁
      exact distinct₁.of_append_left
    exact (loopCompound plain dashed unnamed distinct₀).mpr ⟨c,letters,es₁,rest₁,rfl,dash,taken,distinct₁,
      ih short distinct⟩

end Loop

theorem loopSpec {fuel : ℕ} {words : List Word} {es : List Entry} {p' : ArgumentParser}
    (enough : words.length ≤ fuel)
    (distinct : (positions es).Nodup) : (recorded p es).parseLoop fuel words = .ok p' ↔
      ∃ es', Reads p words es' ∧ (positions (es ++ es')).Nodup ∧ p' = recorded p (es ++ es') := by
  constructor
  · exact loopSound plain distinct
  · rintro ⟨es',reads,distinct',rfl⟩
    exact loopComplete plain reads enough distinct'

end Plain

/-! How reading the words ends otherwise. -/

theorem mapModify {β : Type} {f : Argument → β} (kept : ∀ a e, f (recordUse a e) = f a) (l : List Argument)
    (e : Entry) :
    (l.modify e.position (fun a => recordUse a e)).map f = l.map f := by
  refine List.ext_getElem? (fun i => ?_)
  rw [List.getElem?_map,List.getElem?_map]
  by_cases here : e.position = i
  · subst here
    rw [List.getElem?_modify_eq]
    cases l[e.position]? with
    | none => rfl
    | some a => exact congrArg some (kept a e)
  · rw [List.getElem?_modify_ne _ _ here]

theorem recordedPrint (es : List Entry) : (recorded p es).print = p.print ∧
    (recorded p es).mVersion = p.mVersion := by
  induction es using List.reverseRecOn with
  | nil => exact ⟨rfl,rfl⟩
  | append_singleton es e ih =>
    rw [← recordedAppend,← ih.1,← ih.2]
    have lengths := mapModify (f := Argument.getArgumentsLength) (fun _ _ => rfl)
      (recorded p es).mOptionalArguments e
    have width : (recordEntry (recorded p es) e).getLengthOfLongestArgument =
      (recorded p es).getLengthOfLongestArgument := by
      simp only [getLengthOfLongestArgument,← List.getElem?_map]
      rw [recordEntry,lengths]
    have shown := mapModify (f := Argument.print (recorded p es).getLengthOfLongestArgument) (fun _ _ => rfl)
      (recorded p es).mOptionalArguments e
    have size : ((recordEntry (recorded p es) e).mOptionalArguments).isEmpty =
      (recorded p es).mOptionalArguments.isEmpty := by
      rw [← List.isEmpty_map (f := Argument.getArgumentsLength),recordEntry,lengths,List.isEmpty_map]
    refine ⟨?_,rfl⟩
    rw [ArgumentParser.print,ArgumentParser.print,width,size]
    simp only [recordEntry,shown]

def complaints : List String :=
  ["Maximum number of positional arguments exceeded","Unknown argument","Duplicate argument",
  "optional argument in parameter sequence","Too few arguments"]

def Complaint (h : Halt) : Prop := ∃ what ∈ complaints, h = .exception what

def Indexed (p : ArgumentParser) : Prop := ∀ name i, p.find name = some i → i < p.mOptionalArguments.length

theorem argumentHalts {a : Argument} {rest : List Word} {name : Word} {h : Halt}
    (halted : a.consume rest name = .error h) : Complaint h := by
  simp only [Argument.consume] at halted
  split at halted
  · exact ⟨_,by simp [complaints],(Except.error.inj halted).symm⟩
  · split at halted
    · contradiction
    · split at halted
      · split at halted
        · exact ⟨_,by simp [complaints],(Except.error.inj halted).symm⟩
        · contradiction
      · split at halted
        · contradiction
        · exact ⟨_,by simp [complaints],(Except.error.inj halted).symm⟩

theorem haltsIff {α β : Type} {x : Parse α} {f : α → Parse β} {h : Halt} :
    x >>= f = .error h ↔ x = .error h ∨ ∃ a, x = .ok a ∧ f a = .error h := by
  cases x with
  | error h' => simp
  | ok a => simp

section Halts
variable (plain : Plain p) (indexed : Indexed p)
include indexed

theorem consumeHalts {es : List Entry} {i : ℕ} {rest : List Word} {name named : Word} {h : Halt}
    (found : p.find named = some i)
    (halted : (recorded p es).consume i rest name = .error h) : Complaint h := by
  have there := List.getElem?_eq_getElem (indexed named i found)
  have at_i := recordedAt (p := p) es i
  rw [there,Option.map_some] at at_i
  simp only [ArgumentParser.consume,at_i,haltsIff] at halted
  rcases halted with halted | ⟨_,_,halted⟩
  · exact argumentHalts halted
  · contradiction

include plain

theorem lettersHalt {letters : List Char} {es : List Entry} {rest : List Word} {h : Halt}
    (distinct : (positions es).Nodup)
    (halted : (recorded p es).parseCompound letters rest = .error h) : Complaint h := by
  induction letters generalizing es rest with
  | nil => contradiction
  | cons c letters ih =>
    rw [parseCompound,recordedFind] at halted
    split at halted
    · rename_i i found
      rcases haltsIff.mp halted with halted | ⟨⟨p₁,rest₁⟩,went,halted⟩
      · exact consumeHalts indexed found halted
      · obtain ⟨free,a,v,there,takes,rfl⟩ := (consumeSpec plain).mp went
        exact ih (usedOnce distinct free) halted
    · exact ⟨_,by simp [complaints],(Except.error.inj halted).symm⟩

theorem loopHalts {fuel : ℕ} {words : List Word} {es : List Entry} {h : Halt} (enough : words.length ≤ fuel)
    (distinct : (positions es).Nodup) (halted : (recorded p es).parseLoop fuel words = .error h) :
    h = .exit p.print ∨ h = .exit (p.mVersion ++ "\n") ∨ Complaint h := by
  induction fuel generalizing words es with
  | zero =>
    cases List.length_eq_zero_iff.mp (Nat.le_zero.mp enough)
    contradiction
  | succ fuel ih =>
    cases words with
    | nil => contradiction
    | cons word rest =>
      have short : rest.length ≤ fuel := Nat.le_of_succ_le_succ enough
      rw [parseLoop,recordedFind] at halted
      split at halted
      · exact .inr (.inr ⟨_,by simp [complaints],(Except.error.inj halted).symm⟩)
      · split at halted
        · rename_i i found
          split at halted
          · rw [← (recordedPrint es).1]
            exact .inl (Except.error.inj halted).symm
          · split at halted
            · rw [← (recordedPrint es).2]
              exact .inr (.inl (Except.error.inj halted).symm)
            · rcases haltsIff.mp halted with halted | ⟨⟨p₁,rest₁⟩,went,halted⟩
              · exact .inr (.inr (consumeHalts indexed found halted))
              · obtain ⟨free,a,v,there,takes,rfl⟩ := (consumeSpec plain).mp went
                exact ih ((takesShortens takes).trans short) (usedOnce distinct free) halted
        · split at halted
          · rcases haltsIff.mp halted with halted | ⟨⟨p₁,rest₁⟩,went,halted⟩
            · exact .inr (.inr (lettersHalt plain indexed distinct halted))
            · obtain ⟨es₁,taken,distinct₁,rfl⟩ := (lettersSpec plain distinct).mp went
              exact ih ((lettersShorten taken).trans short) distinct₁ halted
          · exact .inr (.inr ⟨_,by simp [complaints],(Except.error.inj halted).symm⟩)

end Halts

theorem validateHalts {entries : List (Word × ℕ)} {h : Halt} (halted : p.validateAll entries = .error h) :
    ∃ entry ∈ entries, p.mOptionalArguments[entry.2]? = none ∨ ∃ a, p.mOptionalArguments[entry.2]? =
      some a ∧ a.validate = .error h := by
  induction entries with
  | nil => contradiction
  | cons entry entries ih =>
    rw [validateAll] at halted
    split at halted
    · rename_i a there
      rcases haltsIff.mp halted with halted | ⟨_,_,halted⟩
      · exact ⟨entry,by simp,.inr ⟨a,there,halted⟩⟩
      · obtain ⟨entry',inside,rest⟩ := ih halted
        exact ⟨entry',List.mem_cons_of_mem _ inside,rest⟩
    · rename_i missing
      exact ⟨entry,by simp,.inl missing⟩

end HuffmanArchiver.ParserRuns
