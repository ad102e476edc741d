import HuffmanArchiver.CommandLine

/-! The order of the options on a line. A line whose words can be read comes out of the parser as its uses say,
in whatever order they stand on it, or is turned down as a whole because an argument is used twice. -/
namespace HuffmanArchiver.OptionOrder
open Machine Argparse ArgumentParser ParserRuns CommandLine

def duplicate : Halt := .exception "Duplicate argument"

variable {p : ArgumentParser}

theorem entriesCommute {e e' : Entry} (apart : e.position ≠ e'.position) (q : ArgumentParser) :
    recordEntry (recordEntry q e) e' = recordEntry (recordEntry q e') e := by
  simp only [recordEntry,List.modify_modify_ne _ _ _ apart]

theorem recordedPerm {es es' : List Entry} (perm : es.Perm es') (distinct : (positions es).Nodup) :
    recorded p es = recorded p es' := by
  refine perm.foldl_eq' (fun e he e' he' q => ?_) p
  rcases eq_or_ne e e' with rfl | other
  · rfl
  · exact entriesCommute (fun same => other (List.inj_on_of_nodup_map distinct he he' same)) q

section Twice
variable (plain : Plain p)
include plain

theorem consumeTwice {es : List Entry} {i : ℕ} {a : Argument} (there : p.mOptionalArguments[i]? = some a)
    (again : i ∈ positions es)
    (rest : List Word) (name : Word) : (recorded p es).consume i rest name = .error duplicate := by
  have at_i := recordedAt (p := p) es i
  rw [there,Option.map_some] at at_i
  obtain ⟨same,used⟩ := recordsKeep a (es.filter (fun e => e.position = i))
  have repeated : ((es.filter (fun e => e.position = i)).foldl recordUse a).mIsUsed = true :=
    used.mpr (.inr (fun none_there => filterNone.mp none_there again))
  have once := (plain a (List.mem_of_getElem? there)).once
  simp only [ArgumentParser.consume,at_i,Argument.consume,same.repeatable,once,repeated]
  rfl

theorem lettersTwice {letters : List Char} {rest rest' : List Word} {es es' : List Entry}
    (taken : Letters p letters rest es' rest')
    (distinct : (positions es).Nodup) (again : ¬ (positions (es ++ es')).Nodup) :
    (recorded p es).parseCompound letters rest = .error duplicate := by
  induction taken generalizing es with
  | nil => exact absurd (by rwa [List.append_nil]) again
  | @cons c letters i a rest rest₁ rest' v es' found there takes onward ih =>
    rw [parseCompound,recordedFind]
    simp only [found]
    by_cases used : i ∈ positions es
    · rw [consumeTwice plain there used,halts]
    · have went : (recorded p es).consume i rest ['-',c] = .ok (recorded p (es ++ [⟨i,['-',c],v⟩]),rest₁) :=
        (consumeSpec plain).mpr ⟨used,a,v,there,takes,rfl⟩
      rw [went,goesOn]
      exact ih (usedOnce distinct used) (by rwa [List.append_assoc])

theorem loopTwice {fuel : ℕ} {words : List Word} {es es' : List Entry} (reads : Reads p words es')
    (enough : words.length ≤ fuel)
    (distinct : (positions es).Nodup) (again : ¬ (positions (es ++ es')).Nodup) :
    (recorded p es).parseLoop fuel words = .error duplicate := by
  induction reads generalizing es fuel with
  | nil => exact absurd (by rwa [List.append_nil]) again
  | @named word i a rest rest' v es' dashed found later there takes onward ih =>
    cases fuel with
    | zero => exact absurd enough (Nat.not_succ_le_zero _)
    | succ fuel =>
      have short : rest.length ≤ fuel := Nat.le_of_succ_le_succ enough
      rw [parseLoop,recordedFind]
      simp only [dashed,found,show ¬ i = 0 by omega,show ¬ i = 1 by omega,Bool.false_eq_true,if_false]
      by_cases used : i ∈ positions es
      · rw [consumeTwice plain there used,halts]
      · have went : (recorded p es).consume i rest word = .ok (recorded p (es ++ [⟨i,word,v⟩]),rest') :=
          (consumeSpec plain).mpr ⟨used,a,v,there,takes,rfl⟩
        rw [went,goesOn]
        exact ih ((takesShortens takes).trans short) (usedOnce distinct used) (by rwa [List.append_assoc])
  | @compound c letters rest rest' es₁ es' dashed unnamed dash taken onward ih =>
    cases fuel with
    | zero => exact absurd enough (Nat.not_succ_le_zero _)
    | succ fuel =>
      have short : rest.length ≤ fuel := Nat.le_of_succ_le_succ enough
      have form := compoundForm.mpr ⟨c,letters,rfl,dash⟩
      rw [parseLoop,recordedFind]
      simp only [dashed,unnamed,Bool.false_eq_true,if_false,if_pos form]
      by_cases distinct₁ : (positions (es ++ es₁)).Nodup
      · have went := (lettersSpec plain distinct).mpr ⟨es₁,taken,distinct₁,rfl⟩
        rw [List.tail_cons,went,goesOn]
        exact ih ((lettersShorten taken).trans short) distinct₁ (by rwa [List.append_assoc])
      · rw [List.tail_cons,lettersTwice plain taken distinct distinct₁,halts]

theorem readsOutcome {words : List Word} {es : List Entry} (reads : Reads p words es) :
    p.parseLoop words.length words = if (positions es).Nodup then .ok (recorded p es) else .error duplicate := by
  have start : (positions []).Nodup := List.nodup_nil
  split
  · rename_i distinct
    exact (loopSpec plain (le_refl _) start).mpr ⟨es,reads,distinct,rfl⟩
  · rename_i again
    exact loopTwice plain reads (le_refl _) start again

theorem outcomesPerm {words words' : List Word} {es es' : List Entry} (reads : Reads p words es)
    (reads' : Reads p words' es')
    (perm : es.Perm es') : p.parseLoop words.length words = p.parseLoop words'.length words' := by
  have places : (positions es).Nodup ↔ (positions es').Nodup := (perm.map Entry.position).nodup_iff
  rw [readsOutcome plain reads,readsOutcome plain reads']
  by_cases distinct : (positions es).Nodup
  · rw [if_pos distinct,if_pos (places.mp distinct),recordedPerm perm distinct]
  · rw [if_neg distinct,if_neg (fun other => distinct (places.mpr other))]

end Twice

/-! The grammar looks at the names and the arguments of the parser only. -/

section Renamed
variable {q : ArgumentParser} (names : q.mArgumentMap = p.mArgumentMap)
  (arguments : q.mOptionalArguments = p.mOptionalArguments)
include names arguments

theorem lettersRenamed {letters : List Char} {rest rest' : List Word} {es : List Entry}
    (taken : Letters p letters rest es rest') :
    Letters q letters rest es rest' := by
  induction taken with
  | nil => exact .nil
  | cons found there takes _ ih =>
    exact .cons (by rw [find,names]; exact found) (by rw [arguments]; exact there) takes ih

theorem readsRenamed {words : List Word} {es : List Entry} (reads : Reads p words es) : Reads q words es := by
  induction reads with
  | nil => exact .nil
  | named dashed found later there takes _ ih =>
    exact .named dashed (by rw [find,names]; exact found) later (by rw [arguments]; exact there) takes ih
  | compound dashed unnamed dash taken _ ih =>
    exact .compound dashed (by rw [find,names]; exact unnamed) dash (lettersRenamed names arguments taken) ih

end Renamed

theorem optionsAnyOrder (plain : Plain p) {words words' : List Word} {es es' : List Entry}
    (reads : Reads p words es)
    (reads' : Reads p words' es') (perm : es.Perm es') (name : Word) :
      p.parseArgs (name :: words) = p.parseArgs (name :: words') := by
  have same : p.parseArgsInternal (name :: words) = p.parseArgsInternal (name :: words') := by
    by_cases unnamed : p.mProgramName = ""
    · have renamed : Plain {p with mProgramName := String.ofList name} := plain
      have first := readsRenamed (p := p) (q := {p with mProgramName := String.ofList name}) rfl rfl reads
      have second := readsRenamed (p := p) (q := {p with mProgramName := String.ofList name}) rfl rfl reads'
      rw [parseArgsInternal,parseArgsInternal,if_pos unnamed]
      exact outcomesPerm renamed first second perm
    · rw [parseArgsInternal,parseArgsInternal,if_neg unnamed]
      exact outcomesPerm plain reads reads' perm
  rw [ArgumentParser.parseArgs,ArgumentParser.parseArgs,same]

theorem optionsAnyOrderParser : parser.parseArgs [['h'],['-','c','f'],['a'],['-','o'],['b']] =
    parser.parseArgs [['h'],['-','o'],['b'],['-','c'],['-','f'],['a']] := by
  have reads : Reads parser [['-','c','f'],['a'],['-','o'],['b']]
      ([⟨2,['-','c'],some (.boolean true)⟩,⟨4,['-','f'],some (.string ['a'])⟩] ++
        [⟨5,['-','o'],some (.string ['b'])⟩]) :=
    .compound rfl rfl (by decide) (.cons rfl rfl (.flag rfl) (.cons rfl rfl (.value rfl rfl) .nil))
      (.named rfl rfl (by decide) rfl (.value rfl rfl) .nil)
  have reads' : Reads parser [['-','o'],['b'],['-','c'],['-','f'],['a']]
      [⟨5,['-','o'],some (.string ['b'])⟩,⟨2,['-','c'],some (.boolean true)⟩,⟨4,['-','f'],some (.string ['a'])⟩] :=
    .named rfl rfl (by decide) rfl (.value rfl rfl) (.named rfl rfl (by decide) rfl (.flag rfl)
      (.named rfl rfl (by decide) rfl (.value rfl rfl) .nil))
  exact optionsAnyOrder parserPlain reads reads' (List.perm_append_comm) ['h']

end HuffmanArchiver.OptionOrder
