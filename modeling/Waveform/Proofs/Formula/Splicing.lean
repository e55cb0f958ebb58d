import Waveform.Proofs.Formula.Acceptance
import Waveform.Proofs.Formula.Rendering

/-!
# Formulas put together

A formula in parentheses means the same wherever it is put. The text around it adds its own tokens
and nothing else: no run goes on across a parenthesis, and a multiplication is understood only
between two groups. So the tree of a text that is put together from formulas is put together from
their trees, and so is the number of nodes. Main statement: `compileWith_composes`.
-/

namespace Waveform.Formula

/-! ### Understood multiplications between tokens -/

def products : List Token → List Token
  | left :: right :: rest =>
    if left.impliesProduct right then left :: .operator .mul :: products (right :: rest)
    else left :: products (right :: rest)
  | words => words

theorem map_value_withProducts (readings : List (Placed Token)) :
    (withProducts readings).map (·.value) = products (readings.map (·.value)) := by
  fun_induction withProducts readings with
  | case1 left right rest hproduct ih => simp_all [products]
  | case2 left right rest hproduct ih => simp_all [products]
  | case3 readings hshort =>
      cases readings with
      | nil => rfl
      | cons left rest =>
          cases rest with
          | nil => rfl
          | cons right rest => exact absurd rfl (hshort left right rest)

theorem products_cons_of_apart {token : Token} {words : List Token}
    (hapart : ∀ next ∈ words.head?, token.impliesProduct next = false) :
    products (token :: words) = token :: products words := by
  cases words with
  | nil => rfl
  | cons next rest =>
      rw [products, if_neg]
      simp [hapart next rfl]

theorem products_append_of_apart {words after : List Token}
    (hapart : ∀ next ∈ after.head?, ∀ token : Token, token.impliesProduct next = false) :
    products (words ++ after) = products words ++ products after := by
  fun_induction products words with
  | case1 left right rest hproduct ih => simp_all [products]
  | case2 left right rest hproduct ih => simp_all [products]
  | case3 words hshort =>
      match words, hshort with
      | [], _ => rfl
      | [token], _ =>
          exact products_cons_of_apart fun next hnext => hapart next hnext token
      | left :: right :: rest, hshort => exact absurd rfl (hshort left right rest)

theorem products_operator (operator : Operator) (words : List Token) :
    products (.operator operator :: words) = .operator operator :: products words :=
  products_cons_of_apart fun _ _ => rfl

theorem products_openParen (words : List Token) :
    products (.openParen :: words) = .openParen :: products words :=
  products_cons_of_apart fun _ _ => rfl

theorem products_name (name : String) (words : List Token) :
    products (.name name :: words) = .name name :: products words :=
  products_cons_of_apart fun _ _ => rfl

theorem products_group (words after : List Token) :
    products (.openParen :: (words ++ .closeParen :: after)) =
      .openParen :: (products words ++ products (.closeParen :: after)) := by
  rw [products_openParen, products_append_of_apart]
  intro next hnext token
  obtain rfl : Token.closeParen = next := Option.some.inj hnext
  cases token <;> rfl

theorem products_closeParen : products [.closeParen] = [.closeParen] := rfl

theorem products_closeParen_operator (operator : Operator) (words : List Token) :
    products (.closeParen :: .operator operator :: words) =
      .closeParen :: .operator operator :: products words := by
  rw [products_cons_of_apart fun next hnext => ?_, products_operator]
  obtain rfl : Token.operator operator = next := Option.some.inj hnext
  rfl

theorem products_closeParen_openParen (words : List Token) :
    products (.closeParen :: .openParen :: words) =
      .closeParen :: .operator .mul :: products (.openParen :: words) :=
  if_pos rfl

/-! ### What a text means -/

/-- The text spells a formula with some tree and some nesting. -/
def Denotes (text : String) (tree : Expr) (nesting : Nat) : Prop :=
  ∃ words, Scans (visible text.toList) words ∧ Derives .sum (products words) tree nesting

theorem finish_notMem_products {words : List Token} (hwords : .finish ∉ words) :
    .finish ∉ products words := by
  fun_induction products words with
  | case1 left right rest hproduct ih => simp_all
  | case2 left right rest hproduct ih => simp_all
  | case3 words hshort => exact hwords

theorem formulaTokens_withProducts {characters : List (Placed Char)}
    {readings : List (Placed Token)} (hcuts : Cuts characters readings) (position : Nat) :
    formulaTokens (withProducts readings ++ [⟨.finish, position⟩]) =
      products (readings.map (·.value)) := by
  have hfinish : .finish ∉ readings.map (·.value) := by
    rw [List.mem_map]
    rintro ⟨reading, hmem, hvalue⟩
    exact hcuts.ne_finish reading hmem hvalue
  refine Parser.formulaTokens_eq ?_ (finish_notMem_products hfinish) (.inr ⟨[], rfl⟩)
  rw [List.map_append, map_value_withProducts]
  rfl

theorem denotes_of_compileWith {text : String} {maxNodes : Nat} {program : Program}
    (hprogram : compileWith text maxNodes = .ok program) :
    ∃ nesting, Denotes text program.root nesting ∧ program.nodeCount = program.root.size := by
  obtain ⟨tokens, htokens, hread⟩ := compileWith_eq_ok.mp hprogram
  obtain ⟨readings, hcuts, rfl⟩ := tokenize_eq_ok.mp htokens
  obtain ⟨⟨nesting, hderives, -⟩, -, hnodes, -⟩ :=
    Parser.parse_reads (Program.ofTokens_eq_ok.mp hread).1
  rw [formulaTokens_withProducts hcuts] at hderives
  exact ⟨nesting, ⟨_, valuesOf_visibleCharacters text ▸ hcuts.scans, hderives⟩, hnodes⟩

/-- A formula is compiled to its tree, unless the tree is beyond a limit. -/
theorem Denotes.compileWith {text : String} {tree : Expr} {nesting : Nat}
    (h : Denotes text tree nesting) (maxNodes : Nat) :
    compileWith text maxNodes = .ok ⟨text, tree, tree.size⟩ ∨
      ∃ limit, compileWith text maxNodes = .error (.rejected (.tooComplex limit)) ∧
        Parser.Exceeds maxNodes tree nesting limit := by
  obtain ⟨words, hscans, hderives⟩ := h
  obtain ⟨readings, hcuts, rfl⟩ := hscans.cuts (valuesOf_visibleCharacters text)
  have htokens := tokenize_eq_ok.mpr ⟨readings, hcuts, rfl⟩
  rw [← formulaTokens_withProducts hcuts text.length] at hderives
  rw [compileWith_of_tokenize htokens]
  obtain hread | ⟨limit, hlimit, hexceeds⟩ := Parser.parse_of_derives maxNodes hderives
  · have hprogram : Program.ofTokens text _ maxNodes = .ok ⟨text, tree, tree.size⟩ :=
      Program.ofTokens_eq_ok.mpr ⟨hread, rfl⟩
    rw [hprogram]
    exact .inl rfl
  · rw [Program.ofTokens_eq_error.mpr hlimit]
    exact .inr ⟨limit, rfl, hexceeds⟩

/-! ### Groups -/

def enclosed (text : String) : String := "(" ++ text ++ ")"

theorem visible_enclosed (text : String) (rest : List Char) :
    visible (enclosed text).toList ++ rest = '(' :: (visible text.toList ++ ')' :: rest) := by
  have hopen : visible "(".toList = ['('] := by decide
  have hclose : visible ")".toList = [')'] := by decide
  simp only [enclosed, String.toList_append, visible_append, hopen, hclose, List.append_assoc,
    List.cons_append, List.nil_append]

theorem sealing_visible_enclosed (text : String) :
    ∀ c ∈ (visible (enclosed text).toList).head?, Sealing c := by
  rw [← List.append_nil (visible _), visible_enclosed]
  intro c hc
  obtain rfl : '(' = c := Option.some.inj hc
  exact sealing_open

theorem Scans.enclosed {text : String} {rest : List Char} {words words' : List Token}
    (hscans : Scans (visible text.toList) words) (hrest : Scans rest words') :
    Scans (visible (enclosed text).toList ++ rest)
      (.openParen :: (words ++ .closeParen :: words')) :=
  visible_enclosed text rest ▸ hscans.group hrest

theorem Scans.enclosed_alone {text : String} {words : List Token}
    (hscans : Scans (visible text.toList) words) :
    Scans (visible (Formula.enclosed text).toList) (.openParen :: (words ++ [.closeParen])) := by
  have hall := hscans.enclosed .nil
  rwa [List.append_nil] at hall

theorem Derives.grouped {words : List Token} {tree : Expr} {nesting : Nat}
    (h : Derives .sum words tree nesting) :
    Derives .operand (.openParen :: (words ++ [.closeParen])) tree (nesting + 1) :=
  .plain (.group h)

theorem Derives.join (level : Level) {words words' : List Token} {left right : Expr} {m n : Nat}
    (hleft : Derives level.operand words left m) (hright : Derives level.operand words' right n)
    {operator : Operator} (hfits : level.fits operator = true) :
    Derives (.joined level) (words ++ .operator operator :: words') (.binary operator left right)
      (max m n) := by
  have hjoined := Derives.joined [⟨operator, words', right, n⟩] hleft (by simpa using hfits)
    (by simpa using hright)
  simpa [Joint.spelling, Joint.join] using hjoined

theorem Derives.binary {words words' : List Token} {left right : Expr} {m n : Nat}
    (hleft : Derives .operand words left m) (hright : Derives .operand words' right n)
    (operator : Operator) :
    ∃ nesting, Derives .sum (words ++ .operator operator :: words')
      (.binary operator left right) nesting := by
  cases operator with
  | add | sub =>
      exact ⟨_, .join .additive (.alone .multiplicative (.single hleft))
        (.alone .multiplicative (.single hright)) rfl⟩
  | mul | div =>
      exact ⟨_, .alone .additive (.join .multiplicative (.single hleft) (.single hright) rfl)⟩
  | pow => exact ⟨_, .sum_of_power (.raised hleft (.single hright))⟩

def spellings : List (String × Operator) :=
  [("+", .add), ("-", .sub), ("*", .mul), ("×", .mul), ("/", .div), ("÷", .div), ("^", .pow),
    ("**", .pow)]

theorem spells_of_mem_spellings {spelling : String} {operator : Operator}
    (hmem : (spelling, operator) ∈ spellings) : Spells spelling.toList (.operator operator) := by
  simp only [spellings, List.mem_cons, Prod.mk.injEq, List.not_mem_nil, or_false] at hmem
  rcases hmem with ⟨rfl, rfl⟩ | ⟨rfl, rfl⟩ | ⟨rfl, rfl⟩ | ⟨rfl, rfl⟩ | ⟨rfl, rfl⟩ | ⟨rfl, rfl⟩ |
    ⟨rfl, rfl⟩ | ⟨rfl, rfl⟩
  case inr.inr.inr.inr.inr.inr.inr => exact .power
  all_goals exact .symbol (by decide)

namespace Denotes

variable {text text' : String} {tree left right : Expr} {nesting m n : Nat}

theorem group (h : Denotes text tree nesting) : Denotes (enclosed text) tree (nesting + 1) := by
  obtain ⟨words, hscans, hderives⟩ := h
  refine ⟨_, hscans.enclosed_alone, ?_⟩
  rw [products_group]
  exact .sum_of_power (.single hderives.grouped)

theorem binary (hleft : Denotes text left m) (hright : Denotes text' right n) {spelling : String}
    {operator : Operator} (hspells : Spells spelling.toList (.operator operator)) :
    ∃ nesting, Denotes (enclosed text ++ spelling ++ enclosed text')
      (.binary operator left right) nesting := by
  obtain ⟨words, hscans, hderives⟩ := hleft
  obtain ⟨words', hscans', hderives'⟩ := hright
  obtain ⟨nesting, hbinary⟩ := hderives.grouped.binary hderives'.grouped operator
  have hall := hscans.enclosed
    (hscans'.enclosed_alone.sealed hspells (sealing_visible_enclosed text'))
  rw [← hspells.visible, ← List.append_assoc, ← visible_append, ← visible_append,
    ← String.toList_append, ← String.toList_append] at hall
  refine ⟨nesting, _, hall, ?_⟩
  rw [products_group, products_closeParen_operator, products_group, products_closeParen]
  simpa using hbinary

theorem juxtaposed (hleft : Denotes text left m) (hright : Denotes text' right n) :
    ∃ nesting, Denotes (enclosed text ++ enclosed text') (.binary .mul left right) nesting := by
  obtain ⟨words, hscans, hderives⟩ := hleft
  obtain ⟨words', hscans', hderives'⟩ := hright
  obtain ⟨nesting, hbinary⟩ := hderives.grouped.binary hderives'.grouped .mul
  have hall := hscans.enclosed hscans'.enclosed_alone
  rw [← visible_append, ← String.toList_append] at hall
  refine ⟨nesting, _, hall, ?_⟩
  rw [products_group, products_closeParen_openParen, products_group, products_closeParen]
  simpa using hbinary

theorem call (h : Denotes text tree nesting) (function : Elementary) :
    Denotes (function.name ++ enclosed text) (.call function tree) (nesting + 1) := by
  obtain ⟨words, hscans, hderives⟩ := h
  have hname := (lettered_name function).spells
  have hall := hscans.enclosed_alone.sealed hname (sealing_visible_enclosed text)
  rw [← hname.visible, ← visible_append, ← String.toList_append] at hall
  refine ⟨_, hall, ?_⟩
  rw [products_name, products_group]
  exact .sum_of_power (.single (.plain (.call function hderives)))

theorem negative (h : Denotes text tree nesting) :
    Denotes ("-" ++ enclosed text) tree.negated (nesting + 1) := by
  obtain ⟨words, hscans, hderives⟩ := h
  have hminus : Spells "-".toList (.operator .sub) := spells_of_mem_spellings (by decide)
  have hall := hscans.enclosed_alone.sealed hminus (sealing_visible_enclosed text)
  rw [← hminus.visible, ← visible_append, ← String.toList_append] at hall
  refine ⟨_, hall, ?_⟩
  rw [products_operator, products_group]
  exact .sum_of_power (.single (Derives.group hderives).negated)

end Denotes

/-! ### Main statement -/

/--
The text is compiled to a tree with a number of nodes, unless the nodes, the height of the tree or
the nesting of the text are beyond their limit.
-/
def Yields (maxNodes : Nat) (text : String) (tree : Expr) (nodeCount : Nat) : Prop :=
  compileWith text maxNodes = .ok ⟨text, tree, nodeCount⟩ ∨
    ∃ nesting limit, compileWith text maxNodes = .error (.rejected (.tooComplex limit)) ∧
      Denotes text tree nesting ∧ Parser.Exceeds maxNodes tree nesting limit

theorem Denotes.yields {text : String} {tree : Expr} {nesting : Nat}
    (h : Denotes text tree nesting) (maxNodes : Nat) {nodeCount : Nat}
    (hcount : nodeCount = tree.size) : Yields maxNodes text tree nodeCount := by
  rw [hcount]
  exact (h.compileWith maxNodes).imp_right fun ⟨limit, herror, hexceeds⟩ =>
    ⟨nesting, limit, herror, h, hexceeds⟩

/--
Formulas in parentheses are compiled to the same trees as by themselves, and what is written around
them makes one node above them. A minus sign in front of a number makes none.
-/
theorem compileWith_composes {l r : String} {maxLeft maxRight : Nat} {left right : Program}
    (hleft : compileWith l maxLeft = .ok left) (hright : compileWith r maxRight = .ok right)
    (maxNodes : Nat) :
    Yields maxNodes (enclosed l) left.root left.nodeCount ∧
      (∀ spelling operator, (spelling, operator) ∈ spellings →
        Yields maxNodes (enclosed l ++ spelling ++ enclosed r)
          (.binary operator left.root right.root) (left.nodeCount + right.nodeCount + 1)) ∧
      Yields maxNodes (enclosed l ++ enclosed r) (.binary .mul left.root right.root)
        (left.nodeCount + right.nodeCount + 1) ∧
      (∀ name function, Elementary.ofName? name = some function →
        Yields maxNodes (name ++ enclosed l) (.call function left.root) (left.nodeCount + 1)) ∧
      (∀ value, left.root = .literal value →
        Yields maxNodes ("-" ++ enclosed l) (.literal (-value)) left.nodeCount) ∧
      ((∀ value, left.root ≠ .literal value) →
        Yields maxNodes ("-" ++ enclosed l) (.binary .mul (.literal (-1)) left.root)
          (left.nodeCount + 2)) := by
  obtain ⟨m, hdenotes, hnodes⟩ := denotes_of_compileWith hleft
  obtain ⟨n, hdenotes', hnodes'⟩ := denotes_of_compileWith hright
  refine ⟨hdenotes.group.yields maxNodes hnodes, fun spelling operator hmem => ?_, ?_,
    fun name function hname => ?_, fun value hliteral => ?_, fun hother => ?_⟩
  · obtain ⟨nesting, hbinary⟩ := hdenotes.binary hdenotes' (spells_of_mem_spellings hmem)
    exact hbinary.yields maxNodes (by rw [hnodes, hnodes', Expr.size])
  · obtain ⟨nesting, hproduct⟩ := hdenotes.juxtaposed hdenotes'
    exact hproduct.yields maxNodes (by rw [hnodes, hnodes', Expr.size])
  · obtain rfl := Elementary.name_of_ofName? hname
    exact (hdenotes.call function).yields maxNodes (by rw [hnodes, Expr.size])
  · have hnegative := hdenotes.negative
    rw [hliteral] at hnegative
    exact hnegative.yields maxNodes (by rw [hnodes, hliteral]; rfl)
  · have hnegative := hdenotes.negative
    have htree := Expr.negated_of_ne_literal hother
    rw [htree] at hnegative
    refine hnegative.yields maxNodes ?_
    rw [hnodes, Expr.size, Expr.size]
    omega

/-- `2 t` divided by `-3`. -/
theorem compileWith_composes_quotient :
    compileWith "2 t" 9 = .ok ⟨"2 t", .binary .mul (.literal 2) .time, 3⟩ ∧
      compileWith "-3" 1 = .ok ⟨"-3", .literal (-3), 1⟩ ∧
      Yields 9 (enclosed "2 t" ++ "÷" ++ enclosed "-3")
        (.binary .div (.binary .mul (.literal 2) .time) (.literal (-3))) 5 := by
  have hleft : compileWith "2 t" 9 = .ok ⟨"2 t", .binary .mul (.literal 2) .time, 3⟩ := by
    decide +kernel
  have hright : compileWith "-3" 1 = .ok ⟨"-3", .literal (-3), 1⟩ := by decide +kernel
  exact ⟨hleft, hright, (compileWith_composes hleft hright 9).2.1 "÷" .div (by decide)⟩

end Waveform.Formula
