import Pepp.Debug.Parser

/-!
# The grammar of watch expressions

A rule derives a term from a sequence of tokens and leaves the rest. Binary
operators group to the right. A phrase that could go on is not followed by what
can stand behind it, so that the longest phrase of a rule is the only one that
fits into its surroundings.
-/

namespace Pepp.Debug

/-- How loosely an operator binds, as the number of its rule. -/
def Operators.rank : Operators → Nat
  | MULTIPLY | DIVIDE | MODULO => 2
  | ADD | SUBTRACT => 3
  | SHIFT_LEFT | SHIFT_RIGHT => 4
  | LESS | LESS_OR_EQUAL | GREATER_OR_EQUAL | GREATER => 5
  | EQUAL | NOT_EQUAL => 6
  | BIT_AND | BIT_OR | BIT_XOR => 7

namespace Rule

def rank : Rule → Nat
  | P1 => 1
  | P2 => 2
  | P3 => 3
  | P4 => 4
  | P5 => 5
  | P6 => 6
  | P7 => 7
  | _ => 0

/-- The rule for the operands of a binary operator. -/
def lower : Rule → Option Rule
  | P2 => some P1
  | P3 => some P2
  | P4 => some P3
  | P5 => some P4
  | P6 => some P5
  | P7 => some P6
  | _ => none

theorem rank_of_lower {r r' : Rule} (h : r.lower = some r') : r.rank = r'.rank + 1 := by
  cases r <;> simp only [lower, reduceCtorEq, Option.some.injEq] at h <;> subst h <;> rfl

end Rule

/-- The alternatives of a value. -/
def valueRules : List Rule := [.DEBUG_IDENT, .CONSTANT, .IDENT, .PAREN]

theorem rank_of_value {r : Rule} (h : r ∈ valueRules) : r.rank = 0 := by
  rcases h with _ | ⟨_, _ | ⟨_, _ | ⟨_, _ | ⟨_, ⟨⟩⟩⟩⟩⟩ <;> rfl

/-- The alternative of a value that begins with a token. -/
def alternative : Token → Rule
  | .DebugIdentifier _ => .DEBUG_IDENT
  | .UnsignedConstant _ _ => .CONSTANT
  | .Identifier _ => .IDENT
  | _ => .PAREN

/-- A type, which is a primitive or has a name, with so many stars. -/
def castTokens (name : Text) (n : Nat) : List Token :=
  .Literal ['('] :: .Identifier name :: (List.replicate n (.Literal ['*']) ++ [.Literal [')']])

def castTerm (name : Text) (n : Nat) (arg : Term) : Term :=
  match primitiveFromString name with
  | some prim => .DirectCast (pointerTo (.primitive prim) n) arg
  | none => .IndirectCast name arg

def prefixTerm (op : UnaryOperators) (arg : Term) : Term :=
  if op = .DEREFERENCE then .MemoryRead arg else .UnaryPrefix op arg

inductive Derives : Rule → List Token → List Token → Term → Prop where
  | debugIdent (name : Text) (rest : List Token) :
    Derives .DEBUG_IDENT (.DebugIdentifier name :: rest) rest (.DebuggerVariable name)
  | ident (name : Text) (rest : List Token) : Derives .IDENT (.Identifier name :: rest) rest (.Variable name)
  | constant (format : Format) (value : U64) (rest : List Token) :
    Derives .CONSTANT (.UnsignedConstant format value :: rest) rest (.Constant .Dec (.fromBits .i16 value))
  | typed (format : Format) (value : U64) (type : Primitives) (rest : List Token) :
    Derives .CONSTANT (.UnsignedConstant format value :: .TypeSuffix type :: rest) rest
      (.Constant .Dec (.fromBits type value))
  | paren {ts rest : List Token} {t : Term} (h : Derives .P7 ts (.Literal [')'] :: rest) t) :
    Derives .PAREN (.Literal ['('] :: ts) rest (.Parenthesized t)
  | value {r : Rule} {ts rest : List Token} {t : Term} (hr : r ∈ valueRules) (h : Derives r ts rest t) :
    Derives .VALUE ts rest t
  | primary {ts rest : List Token} {t : Term} (h : Derives .VALUE ts rest t) : Derives .P0 ts rest t
  | member (op : MemberOperators) (lhs rhs : Text) (rest : List Token) :
    Derives .P0 (.Identifier lhs :: .Literal op.text :: .Identifier rhs :: rest) rest
      (.MemberAccess op (.Variable lhs) rhs)
  | cast (name : Text) (n : Nat) {ts rest : List Token} {t : Term} (h : Derives .P0 ts rest t) :
    Derives .CAST (castTokens name n ++ ts) rest (castTerm name n t)
  | casted {ts rest : List Token} {t : Term} (h : Derives .CAST ts rest t) : Derives .P1 ts rest t
  | prefixed (op : UnaryOperators) {ts rest : List Token} {t : Term} (h : Derives .P0 ts rest t) :
    Derives .P1 (.Literal op.text :: ts) rest (prefixTerm op t)
  | operand {ts rest : List Token} {t : Term} (h : Derives .P0 ts rest t) : Derives .P1 ts rest t
  | lift {r r' : Rule} {ts rest : List Token} {t : Term} (hr : r.lower = some r') (h : Derives r' ts rest t) :
    Derives r ts rest t
  | binary {r r' : Rule} {op : Operators} {ts mid rest : List Token} {lhs rhs : Term} (hr : r.lower = some r')
    (hop : op.rank = r.rank) (hlhs : Derives r' ts (.Literal op.text :: mid) lhs) (hrhs : Derives r mid rest rhs) :
    Derives r ts rest (.BinaryInfix op lhs rhs)

/-! ## Literals -/

theorem Operators.text_inj {op op' : Operators} (h : op.text = op'.text) : op = op' := by
  cases op <;> cases op' <;> first | rfl | exact absurd h (by decide)

theorem MemberOperators.text_inj {op op' : MemberOperators} (h : op.text = op'.text) : op = op' := by
  cases op <;> cases op' <;> first | rfl | exact absurd h (by decide)

theorem UnaryOperators.text_inj {op op' : UnaryOperators} (h : op.text = op'.text) : op = op' := by
  cases op <;> cases op' <;> first | rfl | exact absurd h (by decide)

variable (op : MemberOperators) {n n' : Nat}

theorem MemberOperators.text_ne_binary (op' : Operators) : op.text ≠ op'.text := by
  cases op <;> cases op' <;> decide

theorem MemberOperators.text_ne_closing : op.text ≠ [')'] := by
  cases op <;> decide

theorem MemberOperators.text_ne_star : op.text ≠ ['*'] := by
  cases op <;> decide

theorem UnaryOperators.text_ne_opening (op : UnaryOperators) : op.text ≠ ['('] := by
  cases op <;> decide

theorem UnaryOperators.text_ne_closing (op : UnaryOperators) : op.text ≠ [')'] := by
  cases op <;> decide

theorem Operators.text_ne_opening (op : Operators) : op.text ≠ ['('] := by
  cases op <;> decide

theorem Operators.text_ne_closing (op : Operators) : op.text ≠ [')'] := by
  cases op <;> decide

/-! ## What stands behind a phrase -/

/-- The rest begins with what may stand behind a phrase of the rule. -/
def Follows (r : Rule) (rest : List Token) : Prop :=
  ∃ text more, rest = .Literal text :: more ∧ (text = [')'] ∨ ∃ op : Operators, text = op.text ∧ r.rank < op.rank)

theorem Follows.mono {r r' : Rule} {rest : List Token} (h : Follows r rest) (hle : r'.rank ≤ r.rank) :
    Follows r' rest := by
  obtain ⟨text, more, rfl, hclose | ⟨op, htext, hop⟩⟩ := h
  · exact ⟨text, more, rfl, .inl hclose⟩
  · exact ⟨text, more, rfl, .inr ⟨op, htext, hle.trans_lt hop⟩⟩

theorem follows_operator {r : Rule} {op : Operators} (h : r.rank < op.rank) (more : List Token) :
    Follows r (.Literal op.text :: more) := ⟨op.text, more, rfl, .inr ⟨op, rfl, h⟩⟩

theorem follows_closing (r : Rule) (more : List Token) : Follows r (.Literal [')'] :: more) :=
  ⟨[')'], more, rfl, .inl rfl⟩

/-- Two phrases of a rule are the same, or the longer one goes on where nothing could stand behind the shorter one. -/
def Compared (r : Rule) (rest : List Token) (t : Term) (rest' : List Token) (t' : Term) : Prop :=
  (rest = rest' ∧ t = t') ∨ (rest'.length < rest.length ∧ ¬Follows r rest) ∨
    (rest.length < rest'.length ∧ ¬Follows r rest')

namespace Derives

variable {r r' : Rule} {ts rest rest' : List Token} {t t' : Term}

/-- A phrase has a token. -/
theorem used (h : Derives r ts rest t) : ∃ tok more, ts = tok :: (more ++ rest) := by
  induction h with
  | debugIdent name rest => exact ⟨_, [], rfl⟩
  | ident name rest => exact ⟨_, [], rfl⟩
  | constant format value rest => exact ⟨_, [], rfl⟩
  | typed format value type rest => exact ⟨_, [_], rfl⟩
  | paren _ ih =>
    obtain ⟨tok, more, rfl⟩ := ih
    exact ⟨.Literal ['('], tok :: (more ++ [.Literal [')']]), by simp⟩
  | value _ _ ih => exact ih
  | primary _ ih => exact ih
  | member op lhs rhs rest => exact ⟨_, [_, _], rfl⟩
  | cast name n _ ih =>
    obtain ⟨tok, more, rfl⟩ := ih
    exact ⟨.Literal ['('], .Identifier name :: (List.replicate n (.Literal ['*']) ++ [.Literal [')']] ++ tok :: more),
      by simp [castTokens]⟩
  | casted _ ih => exact ih
  | prefixed op _ ih =>
    obtain ⟨tok, more, rfl⟩ := ih
    exact ⟨_, tok :: more, rfl⟩
  | operand _ ih => exact ih
  | lift _ _ ih => exact ih
  | @binary r r' op ts mid rest lhs rhs _ _ _ _ ihl ihr =>
    obtain ⟨tok, more, rfl⟩ := ihl
    obtain ⟨tok', more', rfl⟩ := ihr
    exact ⟨tok, more ++ .Literal op.text :: tok' :: more', by simp⟩

theorem length_lt (h : Derives r ts rest t) : rest.length < ts.length := by
  obtain ⟨tok, more, rfl⟩ := h.used
  rw [List.length_cons, List.length_append]
  omega

/-! ### What derives a phrase of a rule -/

theorem debugIdent_inv (h : Derives .DEBUG_IDENT ts rest t) :
    ∃ name, ts = .DebugIdentifier name :: rest ∧ t = .DebuggerVariable name := by
  cases h with
  | debugIdent name _ => exact ⟨name, rfl, rfl⟩
  | lift hlower _ => cases hlower
  | binary hlower _ _ _ => cases hlower

theorem ident_inv (h : Derives .IDENT ts rest t) : ∃ name, ts = .Identifier name :: rest ∧ t = .Variable name := by
  cases h with
  | ident name _ => exact ⟨name, rfl, rfl⟩
  | lift hlower _ => cases hlower
  | binary hlower _ _ _ => cases hlower

theorem constant_inv (h : Derives .CONSTANT ts rest t) :
    (∃ format value, ts = .UnsignedConstant format value :: rest ∧ t = .Constant .Dec (.fromBits .i16 value)) ∨
      ∃ format value type, ts = .UnsignedConstant format value :: .TypeSuffix type :: rest ∧
        t = .Constant .Dec (.fromBits type value) := by
  cases h with
  | constant format value _ => exact .inl ⟨format, value, rfl, rfl⟩
  | typed format value type _ => exact .inr ⟨format, value, type, rfl, rfl⟩
  | lift hlower _ => cases hlower
  | binary hlower _ _ _ => cases hlower

theorem paren_inv (h : Derives .PAREN ts rest t) : ∃ ts' t', ts = .Literal ['('] :: ts' ∧ t = .Parenthesized t' ∧
    Derives .P7 ts' (.Literal [')'] :: rest) t' := by
  cases h with
  | paren h => exact ⟨_, _, rfl, rfl, h⟩
  | lift hlower _ => cases hlower
  | binary hlower _ _ _ => cases hlower

theorem value_inv (h : Derives .VALUE ts rest t) : ∃ r ∈ valueRules, Derives r ts rest t := by
  cases h with
  | value hr h => exact ⟨_, hr, h⟩
  | lift hlower _ => cases hlower
  | binary hlower _ _ _ => cases hlower

theorem primary_inv (h : Derives .P0 ts rest t) : Derives .VALUE ts rest t ∨ ∃ (op : MemberOperators) (lhs rhs : Text),
    ts = .Identifier lhs :: .Literal op.text :: .Identifier rhs :: rest ∧ t = .MemberAccess op (.Variable lhs) rhs := by
  cases h with
  | primary h => exact .inl h
  | member op lhs rhs _ => exact .inr ⟨op, lhs, rhs, rfl, rfl⟩
  | lift hlower _ => cases hlower
  | binary hlower _ _ _ => cases hlower

theorem cast_inv (h : Derives .CAST ts rest t) : ∃ name n ts' t', ts = castTokens name n ++ ts' ∧
    t = castTerm name n t' ∧ Derives .P0 ts' rest t' := by
  cases h with
  | cast name n h => exact ⟨name, n, _, _, rfl, rfl, h⟩
  | lift hlower _ => cases hlower
  | binary hlower _ _ _ => cases hlower

theorem unary_inv (h : Derives .P1 ts rest t) : Derives .CAST ts rest t ∨
    (∃ (op : UnaryOperators) (ts' : List Token) (t' : Term), ts = .Literal op.text :: ts' ∧ t = prefixTerm op t' ∧
      Derives .P0 ts' rest t') ∨ Derives .P0 ts rest t := by
  cases h with
  | casted h => exact .inl h
  | prefixed op h => exact .inr (.inl ⟨op, _, _, rfl, rfl, h⟩)
  | operand h => exact .inr (.inr h)
  | lift hlower _ => cases hlower
  | binary hlower _ _ _ => cases hlower

theorem infix_inv (h : Derives r ts rest t) (hlower : r.lower = some r') : Derives r' ts rest t ∨
    ∃ (op : Operators) (mid : List Token) (lhs rhs : Term), op.rank = r.rank ∧
      Derives r' ts (.Literal op.text :: mid) lhs ∧ Derives r mid rest rhs ∧ t = .BinaryInfix op lhs rhs := by
  cases h with
  | lift hlower' h =>
    obtain rfl := Option.some_inj.mp (hlower.symm.trans hlower')
    exact .inl h
  | binary hlower' hop hlhs hrhs =>
    obtain rfl := Option.some_inj.mp (hlower.symm.trans hlower')
    exact .inr ⟨_, _, _, _, hop, hlhs, hrhs, rfl⟩
  | _ => cases hlower

/-! ### First tokens -/

/-- An operand begins with an opening parenthesis, if with a literal. -/
theorem opening_of_literal {text : Text} {more : List Token} (h : Derives r ts rest t) (hr : r.rank = 0)
    (hts : ts = .Literal text :: more) : text = ['('] := by
  induction h with
  | paren _ _ => exact (Token.Literal.inj (List.cons.inj hts).1).symm
  | value hv _ ih =>
    exact ih (rank_of_value hv) hts
  | primary _ ih => exact ih rfl hts
  | cast name n _ _ => exact (Token.Literal.inj (List.cons.inj hts).1).symm
  | lift hlower _ _ | binary hlower _ _ _ _ _ =>
    rw [Rule.rank_of_lower hlower] at hr
    exact absurd hr (Nat.succ_ne_zero _)
  | casted _ _ => cases hr
  | prefixed _ _ _ => cases hr
  | operand _ _ => cases hr
  | _ => cases hts

/-- Where an operand begins nothing can stand that follows a phrase. -/
theorem not_follows (h : Derives .P0 ts rest t) (r' : Rule) : ¬Follows r' ts := by
  rintro ⟨text, more, rfl, hclose | ⟨op, htext, -⟩⟩
  · have hopen := h.opening_of_literal rfl rfl
    rw [hclose] at hopen
    exact absurd hopen (by decide)
  · have hopen := h.opening_of_literal rfl rfl
    exact op.text_ne_opening (htext.symm.trans hopen)

/-- No phrase begins with stars that are followed by a closing parenthesis. -/
theorem ne_stars (h : Derives r ts rest t) (n : Nat) (more : List Token) :
    ts ≠ List.replicate n (.Literal ['*']) ++ .Literal [')'] :: more := by
  induction h generalizing n with
  | value _ _ ih => exact ih n
  | primary _ ih => exact ih n
  | casted _ ih => exact ih n
  | operand _ ih => exact ih n
  | lift _ _ ih => exact ih n
  | binary _ _ _ _ ihl _ => exact ihl n
  | prefixed op h _ =>
    intro hts
    cases n with
    | zero => exact op.text_ne_closing (Token.Literal.inj (List.cons.inj hts).1)
    | succ n =>
      rw [List.replicate_succ, List.cons_append] at hts
      obtain ⟨-, rfl⟩ := List.cons.inj hts
      cases n with
      | zero => exact absurd (h.opening_of_literal rfl rfl) (by decide)
      | succ n => exact absurd (h.opening_of_literal rfl rfl) (by decide)
  | paren _ _ | cast name n' _ _ =>
    intro hts
    cases n with
    | zero => exact absurd (Token.Literal.inj (List.cons.inj hts).1) (by decide)
    | succ n => exact absurd (Token.Literal.inj (List.cons.inj hts).1) (by decide)
  | _ =>
    intro hts
    cases n <;> cases hts

/-- A name that is followed by stars and a closing parenthesis is a phrase alone. -/
theorem rest_of_stars (h : Derives r ts rest t) {name : Text} {n : Nat} {more : List Token}
    (hts : ts = .Identifier name :: (List.replicate n (.Literal ['*']) ++ .Literal [')'] :: more)) :
    rest = List.replicate n (.Literal ['*']) ++ .Literal [')'] :: more := by
  induction h with
  | ident _ _ => exact (List.cons.inj hts).2
  | value _ _ ih => exact ih hts
  | primary _ ih => exact ih hts
  | casted _ ih => exact ih hts
  | operand _ ih => exact ih hts
  | lift _ _ ih => exact ih hts
  | member op _ _ _ =>
    have hmore := (List.cons.inj hts).2
    cases n with
    | zero => exact absurd (Token.Literal.inj (List.cons.inj hmore).1) op.text_ne_closing
    | succ n => exact absurd (Token.Literal.inj (List.cons.inj hmore).1) op.text_ne_star
  | @binary _ _ op _ _ _ _ _ _ _ _ hrhs ihl _ =>
    have hmore := ihl hts
    cases n with
    | zero => exact absurd (Token.Literal.inj (List.cons.inj hmore).1) op.text_ne_closing
    | succ n => exact absurd (List.cons.inj hmore).2 (hrhs.ne_stars n more)
  | _ => cases hts

end Derives

/-- Stars up to what is none. -/
theorem stars_stop {ts ts' : List Token} (hstop : ∀ more, ts ≠ .Literal ['*'] :: more)
    (h : List.replicate n (Token.Literal ['*']) ++ ts = List.replicate n' (Token.Literal ['*']) ++ .Literal [')'] ::
      ts') :
    n = n' ∧ ts = .Literal [')'] :: ts' := by
  induction n generalizing n' with
  | zero =>
    cases n' with
    | zero => exact ⟨rfl, h⟩
    | succ n' => exact absurd h (hstop _)
  | succ n ih =>
    cases n' with
    | zero => exact absurd (Token.Literal.inj (List.cons.inj h).1) (by decide)
    | succ n' =>
      obtain ⟨rfl, hts⟩ := ih (List.cons.inj h).2
      exact ⟨rfl, hts⟩

theorem stars_inj {ts ts' : List Token} (h : List.replicate n (Token.Literal ['*']) ++ .Literal [')'] :: ts =
      List.replicate n' (Token.Literal ['*']) ++ .Literal [')'] :: ts') : n = n' ∧ ts = ts' := by
  obtain ⟨rfl, heq⟩ := stars_stop (fun more heq => absurd (Token.Literal.inj (List.cons.inj heq).1) (by decide)) h
  exact ⟨rfl, (List.cons.inj heq).2⟩

theorem castTokens_append (name : Text) (n : Nat) (ts : List Token) :
    castTokens name n ++ ts =
      .Literal ['('] :: .Identifier name :: (List.replicate n (.Literal ['*']) ++ .Literal [')'] :: ts) := by
  rw [castTokens, List.cons_append, List.cons_append, List.append_assoc, List.singleton_append]

theorem castTokens_inj {name name' : Text} {ts ts' : List Token}
    (h : castTokens name n ++ ts = castTokens name' n' ++ ts') : name = name' ∧ n = n' ∧ ts = ts' := by
  rw [castTokens_append, castTokens_append] at h
  obtain ⟨hname, hstars⟩ := List.cons.inj (List.cons.inj h).2
  exact ⟨Token.Identifier.inj hname, stars_inj hstars⟩

namespace Compared

variable {r : Rule} {rest rest' : List Token} {t t' : Term}

theorem symm (h : Compared r rest t rest' t') : Compared r rest' t' rest t := by
  obtain ⟨rfl, rfl⟩ | h | h := h
  · exact .inl ⟨rfl, rfl⟩
  · exact .inr (.inr h)
  · exact .inr (.inl h)

theorem map {r' : Rule} (make : Term → Term) (h : Compared r rest t rest' t') (hle : r.rank ≤ r'.rank) :
    Compared r' rest (make t) rest' (make t') := by
  obtain ⟨rfl, rfl⟩ | ⟨hlt, hnot⟩ | ⟨hlt, hnot⟩ := h
  · exact .inl ⟨rfl, rfl⟩
  · exact .inr (.inl ⟨hlt, fun hfollows => hnot (hfollows.mono hle)⟩)
  · exact .inr (.inr ⟨hlt, fun hfollows => hnot (hfollows.mono hle)⟩)

theorem lift {r' : Rule} (h : Compared r rest t rest' t') (hle : r.rank ≤ r'.rank) : Compared r' rest t rest' t' :=
  h.map id hle

/-- Phrases that both have something behind them that may stand there are the same. -/
theorem eq_of_follows (h : Compared r rest t rest' t') (hrest : Follows r rest) (hrest' : Follows r rest') :
    rest = rest' ∧ t = t' := by
  obtain h | ⟨-, hnot⟩ | ⟨-, hnot⟩ := h
  · exact h
  · exact absurd hrest hnot
  · exact absurd hrest' hnot

end Compared

namespace Derives

variable {r r' : Rule} {ts rest rest' : List Token} {t t' : Term}

/-- The alternative of a value is told by the first token. -/
theorem alternative_eq (h : Derives r ts rest t) (hr : r ∈ valueRules) : ts.head?.map alternative = some r := by
  rcases hr with _ | ⟨_, _ | ⟨_, _ | ⟨_, _ | ⟨_, ⟨⟩⟩⟩⟩⟩
  · obtain ⟨name, rfl, -⟩ := h.debugIdent_inv
    rfl
  · obtain ⟨format, value, rfl, -⟩ | ⟨format, value, type, rfl, -⟩ := h.constant_inv <;> rfl
  · obtain ⟨name, rfl, -⟩ := h.ident_inv
    rfl
  · obtain ⟨ts', t', rfl, -⟩ := h.paren_inv
    rfl

theorem value_rule (h : Derives r ts rest t) (hr : r ∈ valueRules) (h' : Derives r' ts rest' t')
    (hr' : r' ∈ valueRules) : r = r' :=
  Option.some_inj.mp ((h.alternative_eq hr).symm.trans (h'.alternative_eq hr'))

/-- A phrase that begins with a name which no literal follows is the name alone. -/
theorem rest_of_name {name : Text} {more : List Token} (h : Derives r ts rest t) (hts : ts = .Identifier name :: more)
    (hmore : ∀ text more', more ≠ .Literal text :: more') : rest = more := by
  induction h with
  | ident _ _ => exact (List.cons.inj hts).2
  | member op _ _ _ => exact absurd (List.cons.inj hts).2.symm (hmore op.text _)
  | binary _ _ _ _ ih _ => exact absurd (ih hts).symm (hmore _ _)
  | cast name n _ _ => cases hts
  | value _ _ ih | primary _ ih | casted _ ih | operand _ ih | lift _ _ ih => exact ih hts
  | _ => cases hts

theorem value_of_identifier {name : Text} {more : List Token} (h : Derives .VALUE (.Identifier name :: more) rest t) :
    rest = more := by
  obtain ⟨r, hr, h⟩ := h.value_inv
  obtain rfl : Rule.IDENT = r := Option.some_inj.mp (h.alternative_eq hr)
  obtain ⟨name', heq, -⟩ := h.ident_inv
  exact (List.cons.inj heq).2.symm

/-- An operand that begins with an opening parenthesis is a phrase in parentheses. -/
theorem paren_of_opening {more : List Token} (h : Derives .P0 (.Literal ['('] :: more) rest t) :
    ∃ t', Derives .P7 more (.Literal [')'] :: rest) t' := by
  obtain h | ⟨op, lhs, rhs, hts, -⟩ := h.primary_inv
  · obtain ⟨r, hr, h⟩ := h.value_inv
    obtain rfl : Rule.PAREN = r := Option.some_inj.mp (h.alternative_eq hr)
    obtain ⟨ts', t', heq, -, h⟩ := h.paren_inv
    obtain ⟨-, rfl⟩ := List.cons.inj heq
    exact ⟨t', h⟩
  · cases hts

/-! ### Two phrases at one place -/

/-- A name and an access to one of its members. -/
theorem compare_member {op : MemberOperators} {lhs rhs : Text}
    (h : Derives .VALUE (.Identifier lhs :: .Literal op.text :: .Identifier rhs :: rest') rest t) (t' : Term) :
    Compared .P0 rest t rest' t' := by
  obtain rfl := h.value_of_identifier
  refine .inr (.inl ⟨by simp only [List.length_cons]; omega, ?_⟩)
  rintro ⟨text, more, heq, hclose | ⟨op', htext, -⟩⟩
  · exact op.text_ne_closing ((Token.Literal.inj (List.cons.inj heq).1).trans hclose)
  · exact op.text_ne_binary op' ((Token.Literal.inj (List.cons.inj heq).1).trans htext)

/-- A cast and an operand that begins with the type in parentheses. -/
theorem compare_cast (h : Derives .CAST ts rest t) (h' : Derives .P0 ts rest' t') :
    rest.length < rest'.length ∧ ¬Follows .P1 rest' := by
  obtain ⟨name, n, ts₀, t₀, rfl, -, harg⟩ := h.cast_inv
  rw [castTokens_append] at h'
  obtain ⟨t₁, hinner⟩ := h'.paren_of_opening
  have hstars := hinner.rest_of_stars rfl
  obtain ⟨rfl, rfl⟩ := @stars_inj 0 n rest' ts₀ hstars
  exact ⟨harg.length_lt, harg.not_follows .P1⟩

/-- A phrase without the operator stops at the operator or before the operand of it is over. -/
theorem compare_operator {mid : List Token} {op : Operators} {lhs : Term} (hlower : r.lower = some r')
    (hop : op.rank = r.rank) (h : Compared r' rest t (.Literal op.text :: mid) lhs) (hlt : rest'.length < mid.length)
    (t' : Term) : Compared r rest t rest' t' := by
  have hrank := Rule.rank_of_lower hlower
  obtain ⟨rfl, -⟩ | ⟨hlt', hnot⟩ | ⟨-, hnot⟩ := h
  · refine .inr (.inl ⟨by rw [List.length_cons]; omega, ?_⟩)
    rintro ⟨text, more, heq, hclose | ⟨op', htext, hlt''⟩⟩
    · exact op.text_ne_closing ((Token.Literal.inj (List.cons.inj heq).1).trans hclose)
    · obtain rfl := Operators.text_inj ((Token.Literal.inj (List.cons.inj heq).1).trans htext)
      omega
  · rw [List.length_cons] at hlt'
    exact .inr (.inl ⟨by omega, fun hfollows => hnot (hfollows.mono (by omega))⟩)
  · exact absurd (follows_operator (by omega) mid) hnot

theorem not_follows_suffix (r : Rule) (type : Primitives) (rest : List Token) :
    ¬Follows r (.TypeSuffix type :: rest) := by
  rintro ⟨text, more, heq, -⟩
  cases heq

/-- Of two phrases of a rule at one place one goes on behind the other, if they are not the same. -/
theorem compare (h : Derives r ts rest t) (h' : Derives r ts rest' t') : Compared r rest t rest' t' := by
  induction h generalizing rest' t' with
  | debugIdent name rest =>
    obtain ⟨name', heq, rfl⟩ := h'.debugIdent_inv
    obtain ⟨hname, rfl⟩ := List.cons.inj heq
    exact .inl ⟨rfl, congrArg Term.DebuggerVariable (Token.DebugIdentifier.inj hname)⟩
  | ident name rest =>
    obtain ⟨name', heq, rfl⟩ := h'.ident_inv
    obtain ⟨hname, rfl⟩ := List.cons.inj heq
    exact .inl ⟨rfl, congrArg Term.Variable (Token.Identifier.inj hname)⟩
  | constant format value rest =>
    obtain ⟨format', value', heq, rfl⟩ | ⟨format', value', type, heq, -⟩ := h'.constant_inv
    · obtain ⟨hvalue, rfl⟩ := List.cons.inj heq
      rw [(Token.UnsignedConstant.inj hvalue).2]
      exact .inl ⟨rfl, rfl⟩
    · obtain ⟨-, rfl⟩ := List.cons.inj heq
      exact .inr (.inl ⟨Nat.lt_succ_self _, not_follows_suffix _ type rest'⟩)
  | typed format value type rest =>
    obtain ⟨format', value', heq, -⟩ | ⟨format', value', type', heq, rfl⟩ := h'.constant_inv
    · obtain ⟨-, rfl⟩ := List.cons.inj heq
      exact .inr (.inr ⟨Nat.lt_succ_self _, not_follows_suffix _ type rest⟩)
    · obtain ⟨hvalue, heq⟩ := List.cons.inj heq
      obtain ⟨htype, rfl⟩ := List.cons.inj heq
      rw [(Token.UnsignedConstant.inj hvalue).2, Token.TypeSuffix.inj htype]
      exact .inl ⟨rfl, rfl⟩
  | paren _ ih =>
    obtain ⟨ts', t', heq, rfl, h'⟩ := h'.paren_inv
    obtain ⟨-, rfl⟩ := List.cons.inj heq
    obtain ⟨hrest, rfl⟩ := (ih h').eq_of_follows (follows_closing _ _) (follows_closing _ _)
    exact .inl ⟨(List.cons.inj hrest).2, rfl⟩
  | value hr h ih =>
    obtain ⟨r', hr', h'⟩ := h'.value_inv
    obtain rfl := h.value_rule hr h' hr'
    exact (ih h').lift (rank_of_value hr).le
  | primary h ih =>
    obtain h' | ⟨op, lhs, rhs, rfl, rfl⟩ := h'.primary_inv
    · exact (ih h').lift le_rfl
    · exact h.compare_member _
  | member op lhs rhs rest =>
    obtain h' | ⟨op', lhs', rhs', heq, rfl⟩ := h'.primary_inv
    · exact (h'.compare_member _).symm
    · obtain ⟨hlhs, heq⟩ := List.cons.inj heq
      obtain ⟨hop, heq⟩ := List.cons.inj heq
      obtain ⟨hrhs, hrest⟩ := List.cons.inj heq
      rw [Token.Identifier.inj hlhs, Token.Identifier.inj hrhs, MemberOperators.text_inj (Token.Literal.inj hop)]
      exact .inl ⟨hrest, rfl⟩
  | cast name n h ih =>
    obtain ⟨name', n', ts', t', heq, rfl, h'⟩ := h'.cast_inv
    obtain ⟨rfl, rfl, rfl⟩ := castTokens_inj heq
    exact (ih h').map (castTerm name n) le_rfl
  | casted h ih =>
    obtain h' | ⟨op, ts', t', rfl, -, -⟩ | h' := h'.unary_inv
    · exact (ih h').lift (Nat.zero_le 1)
    · exact absurd (h.opening_of_literal rfl rfl) op.text_ne_opening
    · exact .inr (.inr (h.compare_cast h'))
  | prefixed op h ih =>
    obtain h' | ⟨op', ts', t', heq, rfl, harg⟩ | h' := h'.unary_inv
    · exact absurd (h'.opening_of_literal rfl rfl) op.text_ne_opening
    · obtain ⟨hop, rfl⟩ := List.cons.inj heq
      obtain rfl := UnaryOperators.text_inj (Token.Literal.inj hop)
      exact (ih harg).map (prefixTerm op) (Nat.zero_le 1)
    · exact absurd (h'.opening_of_literal rfl rfl) op.text_ne_opening
  | operand h ih =>
    obtain h' | ⟨op, ts', t', rfl, -, -⟩ | h' := h'.unary_inv
    · exact .inr (.inl (h'.compare_cast h))
    · exact absurd (h.opening_of_literal rfl rfl) op.text_ne_opening
    · exact (ih h').lift (Nat.zero_le 1)
  | lift hlower h ih =>
    obtain h' | ⟨op, mid, lhs, rhs, hop, hlhs, hrhs, rfl⟩ := h'.infix_inv hlower
    · exact (ih h').lift (by rw [Rule.rank_of_lower hlower]; omega)
    · exact compare_operator hlower hop (ih hlhs) hrhs.length_lt _
  | @binary r r' op ts mid rest lhs rhs hlower hop hlhs hrhs ihl ihr =>
    have hrank := Rule.rank_of_lower hlower
    obtain h' | ⟨op', mid', lhs', rhs', hop', hlhs', hrhs', rfl⟩ := h'.infix_inv hlower
    · exact (compare_operator hlower hop (ihl h').symm hrhs.length_lt _).symm
    · obtain ⟨heq, rfl⟩ :=
        (ihl hlhs').eq_of_follows (follows_operator (by omega) mid) (follows_operator (by omega) mid')
      obtain ⟨hop, rfl⟩ := List.cons.inj heq
      obtain rfl := Operators.text_inj (Token.Literal.inj hop)
      exact (ihr hrhs').map (.BinaryInfix op lhs) le_rfl

end Derives

/-! ## The longest phrase -/

/-- What a rule derives of a sequence of tokens that begins with it. -/
structure Longest (r : Rule) (ts rest : List Token) (t : Term) : Prop where
  derives : Derives r ts rest t
  longest : ∀ {rest' : List Token} {t' : Term}, Derives r ts rest' t' → rest.length ≤ rest'.length

namespace Longest

variable {r r' : Rule} {ts rest rest' : List Token} {t t' : Term}

/-- A phrase that something follows is the longest one. -/
theorem eq_of_follows (h : Longest r ts rest t) (h' : Derives r ts rest' t') (hfollows : Follows r rest') :
    rest' = rest ∧ t' = t := by
  obtain ⟨rfl, rfl⟩ | ⟨hlt, -⟩ | ⟨-, hnot⟩ := h.derives.compare h'
  · exact ⟨rfl, rfl⟩
  · exact absurd (h.longest h') (Nat.not_le_of_lt hlt)
  · exact absurd hfollows hnot

theorem debugIdent (name : Text) (rest : List Token) :
    Longest .DEBUG_IDENT (.DebugIdentifier name :: rest) rest (.DebuggerVariable name) := by
  refine ⟨.debugIdent name rest, ?_⟩
  intro rest' t' h'
  obtain ⟨name', heq, -⟩ := h'.debugIdent_inv
  rw [(List.cons.inj heq).2]

theorem ident (name : Text) (rest : List Token) : Longest .IDENT (.Identifier name :: rest) rest (.Variable name) := by
  refine ⟨.ident name rest, ?_⟩
  intro rest' t' h'
  obtain ⟨name', heq, -⟩ := h'.ident_inv
  rw [(List.cons.inj heq).2]

/-- A constant that no suffix follows. -/
theorem constant {format : Format} {value : U64} (hrest : ∀ type more, rest ≠ .TypeSuffix type :: more) :
    Longest .CONSTANT (.UnsignedConstant format value :: rest) rest (.Constant .Dec (.fromBits .i16 value)) := by
  refine ⟨.constant format value rest, ?_⟩
  intro rest' t' h'
  obtain ⟨format', value', heq, -⟩ | ⟨format', value', type, heq, -⟩ := h'.constant_inv
  · rw [(List.cons.inj heq).2]
  · exact absurd (List.cons.inj heq).2 (hrest type rest')

theorem typed (format : Format) (value : U64) (type : Primitives) (rest : List Token) :
    Longest .CONSTANT (.UnsignedConstant format value :: .TypeSuffix type :: rest) rest
      (.Constant .Dec (.fromBits type value)) := by
  refine ⟨.typed format value type rest, ?_⟩
  intro rest' t' h'
  obtain ⟨format', value', heq, -⟩ | ⟨format', value', type', heq, -⟩ := h'.constant_inv
  · rw [← (List.cons.inj heq).2]
    exact Nat.le_succ _
  · rw [(List.cons.inj (List.cons.inj heq).2).2]

theorem primary (h : Longest .VALUE ts rest t)
    (hother : ∀ (op : MemberOperators) (lhs rhs : Text) (more : List Token),
      ts ≠ .Identifier lhs :: .Literal op.text :: .Identifier rhs :: more) : Longest .P0 ts rest t := by
  refine ⟨.primary h.derives, ?_⟩
  intro rest' t' h'
  obtain h' | ⟨op, lhs, rhs, heq, -⟩ := h'.primary_inv
  · exact h.longest h'
  · exact absurd heq (hother op lhs rhs rest')

theorem member (op : MemberOperators) (lhs rhs : Text) (rest : List Token) :
    Longest .P0 (.Identifier lhs :: .Literal op.text :: .Identifier rhs :: rest) rest
      (.MemberAccess op (.Variable lhs) rhs) := by
  refine ⟨.member op lhs rhs rest, ?_⟩
  intro rest' t' h'
  obtain h' | ⟨op', lhs', rhs', heq, -⟩ := h'.primary_inv
  · rw [h'.value_of_identifier]
    exact (Nat.le_succ _).trans (Nat.le_succ _)
  · rw [(List.cons.inj (List.cons.inj (List.cons.inj heq).2).2).2]

theorem value (h : Longest r ts rest t) (hr : r ∈ valueRules) : Longest .VALUE ts rest t := by
  refine ⟨.value hr h.derives, ?_⟩
  intro rest' t' h'
  obtain ⟨r', hr', h'⟩ := h'.value_inv
  obtain rfl := h.derives.value_rule hr h' hr'
  exact h.longest h'

theorem paren (h : Longest .P7 ts (.Literal [')'] :: rest) t) :
    Longest .PAREN (.Literal ['('] :: ts) rest (.Parenthesized t) := by
  refine ⟨.paren h.derives, ?_⟩
  intro rest' t' h'
  obtain ⟨ts', t'', heq, -, h'⟩ := h'.paren_inv
  obtain ⟨-, rfl⟩ := List.cons.inj heq
  obtain ⟨heq, -⟩ := h.eq_of_follows h' (follows_closing _ _)
  exact (congrArg List.length (List.cons.inj heq).2).ge

/-- A phrase of a rule for binary operators is one for their operands, or goes on behind the longest of these. -/
theorem infix_cases (h : Longest r' ts rest t) (hlower : r.lower = some r') (h' : Derives r ts rest' t') :
    Derives r' ts rest' t' ∨ ∃ (op : Operators) (mid : List Token) (rhs : Term), op.rank = r.rank ∧
      rest = .Literal op.text :: mid ∧ Derives r mid rest' rhs := by
  have hrank := Rule.rank_of_lower hlower
  obtain h' | ⟨op, mid, lhs, rhs, hop, hlhs, hrhs, -⟩ := h'.infix_inv hlower
  · exact .inl h'
  · obtain ⟨heq, -⟩ := h.eq_of_follows hlhs (follows_operator (by omega) mid)
    exact .inr ⟨op, mid, rhs, hop, heq.symm, hrhs⟩

theorem binary {op : Operators} {mid : List Token} {rhs : Term} (h : Longest r' ts (.Literal op.text :: mid) t)
    (hlower : r.lower = some r') (hop : op.rank = r.rank) (h' : Longest r mid rest rhs) :
    Longest r ts rest (.BinaryInfix op t rhs) := by
  refine ⟨.binary hlower hop h.derives h'.derives, ?_⟩
  intro rest' t' hother
  obtain hother | ⟨op', mid', rhs', -, heq, hother⟩ := h.infix_cases hlower hother
  · have hle := h.longest hother
    have hlt := h'.derives.length_lt
    rw [List.length_cons] at hle
    omega
  · obtain ⟨-, rfl⟩ := List.cons.inj heq
    exact h'.longest hother

theorem lift (h : Longest r' ts rest t) (hlower : r.lower = some r')
    (honly : ∀ rest' t', Derives r ts rest' t' → Derives r' ts rest' t') : Longest r ts rest t :=
  ⟨.lift hlower h.derives, fun hother => h.longest (honly _ _ hother)⟩

theorem cast {name : Text} {n : Nat} (h : Longest .P0 ts rest t) :
    Longest .CAST (castTokens name n ++ ts) rest (castTerm name n t) := by
  refine ⟨.cast name n h.derives, ?_⟩
  intro rest' t' h'
  obtain ⟨name', n', ts', t'', heq, -, h'⟩ := h'.cast_inv
  obtain ⟨-, -, rfl⟩ := castTokens_inj heq
  exact h.longest h'

theorem casted (h : Longest .CAST ts rest t) : Longest .P1 ts rest t := by
  refine ⟨.casted h.derives, ?_⟩
  intro rest' t' h'
  obtain h' | ⟨op, ts', t'', rfl, -, -⟩ | h' := h'.unary_inv
  · exact h.longest h'
  · exact absurd (h.derives.opening_of_literal rfl rfl) op.text_ne_opening
  · exact (h.derives.compare_cast h').1.le

theorem prefixed {op : UnaryOperators} (h : Longest .P0 ts rest t) :
    Longest .P1 (.Literal op.text :: ts) rest (prefixTerm op t) := by
  refine ⟨.prefixed op h.derives, ?_⟩
  intro rest' t' h'
  obtain h' | ⟨op', ts', t'', heq, -, h'⟩ | h' := h'.unary_inv
  · exact absurd (h'.opening_of_literal rfl rfl) op.text_ne_opening
  · obtain ⟨-, rfl⟩ := List.cons.inj heq
    exact h.longest h'
  · exact absurd (h'.opening_of_literal rfl rfl) op.text_ne_opening

/-- An operand that is neither cast nor has an operator in front of it. -/
theorem operand (h : Longest .P0 ts rest t) (hcast : ∀ rest' t', ¬Derives .CAST ts rest' t')
    (hsign : ∀ (op : UnaryOperators) (more : List Token), ts ≠ .Literal op.text :: more) : Longest .P1 ts rest t := by
  refine ⟨.operand h.derives, ?_⟩
  intro rest' t' h'
  obtain h' | ⟨op, ts', t'', heq, -, -⟩ | h' := h'.unary_inv
  · exact absurd h' (hcast rest' t')
  · exact absurd heq (hsign op ts')
  · exact h.longest h'

end Longest

end Pepp.Debug
