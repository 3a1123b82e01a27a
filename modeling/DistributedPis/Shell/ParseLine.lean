import DistributedPis.Library.Fields
import DistributedPis.Shell.SendProg

/-! Parsing a line of the shell (`parse_line`). The first token is compared before it is known to
exist, and a token is stored before the number of tokens is checked. -/
namespace DistributedPis
open Library

/-- `strtok`: the next token, and what it will go on with. -/
def strtok (delim : Char) (s : List Char) : Option (List Char) × List Char :=
  match s.dropWhile (· = delim) with
  | [] => (none, [])
  | c::s => (some ((c::s).takeWhile (· ≠ delim)), ((c::s).dropWhile (· ≠ delim)).drop 1)

/-- The text up to its terminator. -/
def cText (s : List Char) : List Char := s.takeWhile (· ≠ Char.ofNat 0)

def maxTokens : ℕ := 100

/-- The commands of the shell. -/
def commandOf (token : List Char) : Option Word :=
  if token = "exit".toList then some ShellOp.exit
  else if token = "run".toList then some ShellOp.run
  else if token = "update".toList then some ShellOp.update
  else if token = "list".toList then some ShellOp.list
  else none

/-- What `parse_line` returns: -1, or 1 with the command and its tokens. -/
inductive ParseResult where
  | error
  | ok (command : Word) (tokens : List (List Char))
  deriving DecidableEq

/-- The loop of `parse_line`; it fails when it writes outside of `tokens`. -/
def parseArgs (command : Word) : ℕ → List (List Char) → List Char → Option ParseResult
  | 0, _, _ => none
  | fuel+1, tokens, s =>
    match strtok ' ' s with
    | (none, _) => some (.ok command tokens)
    | (some token, s) =>
      if tokens.length < maxTokens then
        if maxTokens < tokens.length+1 then some .error
        else parseArgs command fuel (tokens ++ [token]) s
      else none

/-- `parse_line`; it fails on a null token. -/
def parseLine (line : List Char) : Option ParseResult :=
  match strtok ' ' (cText line) with
  | (none, _) => none
  | (some token, s) =>
    match commandOf token with
    | some command => parseArgs command (s.length+1) [] s
    | none => some .error

/-- The words of a line. -/
def lineWords (line : List Char) : List (List Char) := fields ' ' (cText line)

/-- The command and the words behind it, if there are not too many. -/
def expectedParse (line : List Char) : ParseResult :=
  match lineWords line with
  | [] => .error
  | w::ws =>
    match commandOf w with
    | some command => if ws.length ≤ maxTokens then .ok command ws else .error
    | none => .error

section Tokens
variable {s rest token : List Char} {tokens : List (List Char)} {command : Word} {fuel : ℕ}

/-- `strtok` takes the first field off. -/
theorem strtok_cases (s : List Char) :
    (strtok ' ' s = (none, []) ∧ fields ' ' s = []) ∨
      ∃ token rest, strtok ' ' s = (some token, rest) ∧
        fields ' ' s = token :: fields ' ' rest ∧ rest.length < s.length := by
  rw [← fields_dropWhile]
  have hle : (s.dropWhile (· = ' ')).length ≤ s.length := List.length_dropWhile_le _ _
  rcases hrest : s.dropWhile (· = ' ') with _ | ⟨c,cs⟩
  · exact .inl ⟨by rw [strtok, hrest], fields_nil _⟩
  · have hc : c ≠ ' ' := by
      have hhead := List.head?_dropWhile_not (· = ' ') s
      rw [hrest] at hhead
      simpa using hhead
    refine .inr ⟨_, _, by rw [strtok, hrest], fields_cons hc, ?_⟩
    rw [hrest, List.length_cons] at hle
    have hdrop : ((c::cs).dropWhile (· ≠ ' ')).length ≤ cs.length + 1 :=
      List.length_dropWhile_le _ _
    rw [List.length_drop]
    omega

/-- The loop stores the fields of the text if there is room for them. -/
theorem parseArgs_eq (hfuel : s.length < fuel) (htokens : tokens.length ≤ maxTokens) :
    parseArgs command fuel tokens s =
      if tokens.length + (fields ' ' s).length ≤ maxTokens then
        some (.ok command (tokens ++ fields ' ' s))
      else none := by
  induction fuel generalizing tokens s with
  | zero => exact absurd hfuel (Nat.not_lt_zero _)
  | succ fuel ih =>
    rw [parseArgs]
    rcases strtok_cases s with ⟨htok,hnil⟩ | ⟨token,rest,htok,hcons,hlt⟩
    · rw [htok, hnil, List.append_nil]
      exact (if_pos htokens).symm
    · rw [htok, hcons, List.length_cons]
      dsimp only
      by_cases hroom : tokens.length < maxTokens
      · rw [if_pos hroom, if_neg (by omega), ih (by omega) (by simpa using hroom)]
        have hadd : tokens.length + 1 + (fields ' ' rest).length =
            tokens.length + ((fields ' ' rest).length + 1) := by omega
        rw [List.length_append, List.length_singleton, hadd, List.append_assoc,
          List.singleton_append]
      · rw [if_neg hroom, if_neg (by omega)]

end Tokens

/-- A line is parsed as it should be exactly if it has a word, and at most 100 more of them when
the first one is a command. -/
theorem parseLine_iff (line : List Char) :
    parseLine line = some (expectedParse line) ↔
      ∃ w ws, lineWords line = w::ws ∧ (commandOf w = none ∨ ws.length ≤ maxTokens) := by
  unfold parseLine expectedParse lineWords
  rcases strtok_cases (cText line) with ⟨htok,hnil⟩ | ⟨token,rest,htok,hcons,hlt⟩
  · rw [htok, hnil]
    exact iff_of_false (by simp) (by rintro ⟨_,_,h,_⟩; cases h)
  · rw [htok, hcons]
    dsimp only
    rcases hcommand : commandOf token with _ | command
    · exact iff_of_true rfl ⟨token, _, rfl, .inl hcommand⟩
    · dsimp only
      rw [parseArgs_eq (Nat.lt_succ_self _) (Nat.zero_le _), List.length_nil, Nat.zero_add,
        List.nil_append]
      by_cases hroom : (fields ' ' rest).length ≤ maxTokens
      · rw [if_pos hroom, if_pos hroom]
        exact iff_of_true rfl ⟨token, _, rfl, .inr hroom⟩
      · rw [if_neg hroom, if_neg hroom]
        refine iff_of_false (by simp) ?_
        rintro ⟨w,ws,hwords,hnone | hle⟩
        · obtain ⟨rfl,rfl⟩ := List.cons.inj hwords
          rw [hcommand] at hnone
          cases hnone
        · obtain ⟨rfl,rfl⟩ := List.cons.inj hwords
          exact hroom hle

/-- The tokens that are handed on fit into the array. -/
theorem parseLine_tokens {line : List Char} {command : Word} {tokens : List (List Char)}
    (h : parseLine line = some (.ok command tokens)) : tokens.length ≤ maxTokens := by
  unfold parseLine at h
  rcases strtok_cases (cText line) with ⟨htok,_⟩ | ⟨token,rest,htok,_,_⟩
  · rw [htok] at h
    cases h
  · rw [htok] at h
    dsimp only at h
    rcases hcommand : commandOf token with _ | command'
    · rw [hcommand] at h
      cases h
    · rw [hcommand] at h
      dsimp only at h
      rw [parseArgs_eq (Nat.lt_succ_self _) (Nat.zero_le _), List.length_nil, Nat.zero_add,
        List.nil_append] at h
      by_cases hroom : (fields ' ' rest).length ≤ maxTokens
      · rw [if_pos hroom] at h
        cases h
        exact hroom
      · rw [if_neg hroom] at h
        cases h

/-- Blank lines have no first token, and the token of a 101st argument is stored behind the
array. -/
theorem parseLine_fails :
    parseLine [] = none ∧ expectedParse [] = .error ∧
    parseLine [' ',' '] = none ∧ expectedParse [' ',' '] = .error ∧
    parseLine ("list".toList ++ (List.replicate 101 [' ','1']).flatten) = none ∧
    expectedParse ("list".toList ++ (List.replicate 101 [' ','1']).flatten) = .error := by
  decide +kernel

end DistributedPis
