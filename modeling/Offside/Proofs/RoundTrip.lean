import Offside.Proofs.Reader.ProgramRelocation
import Offside.Proofs.Reader.Statement

/-!
# Reading undoes rendering

A well-formed program is read back from its tokens, up to spans.  Statements that may stand in a
block keep the registry of classes, so their reading is a fact about tokens alone.  A class is
registered behind its body; between the statements of a program the reader stands outside all blocks
and has registered the classes before it (`Outside`), and that is what a reading of statement after
statement keeps.  This is shown for tokens without spans; tokens that differ in their spans are read
alike (`readTokens_vary`).
-/

namespace Offside

open List

/-! ## Class bodies -/

/-- The body of a well-formed class passes the check, wherever it stands. -/
theorem ClassDef.WellFormed.checkClassBody {c : ClassDef} (h : c.WellFormed) (className : String) :
    checkClassBody className [] (Statement.relocateAll nowhere c.body) = .ok () := by
  rw [Statement.relocateAll_eq_map, checkClassBody_relocate,
    Reader.checkClassBody_eq_ok_iff.mpr ⟨h.members, h.signatures, fun _ _ => not_mem_nil⟩]
  rfl

namespace Reader

/-! ## Steps that register classes -/

/-- A reader stands outside all blocks in front of the given tokens, and has registered classes of
the given names. -/
structure Outside (r : Reader) (ts : List Kind) (classes : List String) : Prop where
  before : r.Before ts
  blockDepth : r.blockDepth = 0
  registry : ∀ name, r.registry.contains name = true ↔ name ∈ classes

/-- A step succeeds outside all blocks, and goes on from the classes `old` to the classes `new`. -/
def Registers {α : Type} (item : Read α) (ts rest : List Kind) (old new : List String) (a : α) :
    Prop :=
  ∀ r, Outside r ts old → ∃ r', item r = .ok a r' ∧ Outside r' rest new

section Steps

variable {α β : Type} {a : α} {b : β} {ts mid rest : List Kind} {old between new : List String}

theorem Reads.registers {item : Read α} (h : Reads item ts rest a) :
    Registers item ts rest old old a := by
  intro r hr
  obtain ⟨r', hrun, hpasses⟩ := h r hr.before
  refine ⟨r', hrun, hpasses.before, hpasses.blockDepth.trans hr.blockDepth, fun name => ?_⟩
  rw [hpasses.registry]
  exact hr.registry name

theorem Registers.bind {x : Read α} {f : α → Read β} (hx : Registers x ts mid old between a)
    (hf : Registers (f a) mid rest between new b) : Registers (x >>= f) ts rest old new b := by
  intro r hr
  obtain ⟨r', hrun, hr'⟩ := hx r hr
  obtain ⟨r'', hrun', hr''⟩ := hf r' hr'
  exact ⟨r'', (bind_eq_of_ok hrun).trans hrun', hr''⟩

/-- A step that keeps the classes is followed by one that may register some. -/
theorem Reads.bindRegisters {x : Read α} {f : α → Read β} (hx : Reads x ts mid a)
    (hf : Registers (f a) mid rest old new b) : Registers (x >>= f) ts rest old new b :=
  hx.registers.bind hf

theorem Registers.pure : Registers (pure a) ts ts old old a := Reads.pure.registers

theorem Registers.ifHeads {test : Kind → Bool} (htest : Heads test ts) {x y : Read β}
    (h : Registers x ts rest old new b) :
    Registers (Reader.peek >>= fun kind => if test kind = true then x else y) ts rest
      old new b := by
  cases ts with
  | nil => cases htest
  | cons k ts =>
    have htrue : test (k.relocate nowhere) := htest
    refine reads_peek.bindRegisters ?_
    rw [if_pos htrue]
    exact h

theorem Registers.get {f : Reader → Read β}
    (h : ∀ r, Outside r ts old → Registers (f r) ts rest old new b) :
    Registers (MonadState.get >>= f) ts rest old new b :=
  fun r hr => h r hr r hr

end Steps

/-- A class with a new name and a known superclass is registered. -/
theorem registers_registerClass {ts : List Kind} {classes : List String} {c : ClassDef}
    (hname : c.name ∉ classes) (hsuperclass : ∀ superclass ∈ c.superclass, superclass ∈ classes) :
    Registers (registerClass c) ts ts classes (classes ++ [c.name]) () := by
  intro r h
  have hnew : r.registry.contains c.name = false := by
    rw [Bool.eq_false_iff]
    exact fun hcontains => hname ((h.registry c.name).mp hcontains)
  have hknown : ∀ s ∈ c.superclass, r.registry.contains s :=
    fun s hs => (h.registry s).mpr (hsuperclass s hs)
  have hregister := ClassRegistry.register_eq_ok_iff.mpr ⟨hnew, hknown, rfl⟩
  refine ⟨{ r with
    reported := .registering c.name c.superclass c.attributes.length :: r.reported
    registry := ⟨c :: r.registry.latestFirst⟩ }, ?_,
    ⟨h.before.tokens, h.before.stop, h.before.last⟩, h.blockDepth, fun name => ?_⟩
  · refine (bind_eq_of_ok rfl).trans ((bind_eq_of_ok rfl).trans ?_)
    simp only [hregister]
    rfl
  · have hcons : ClassRegistry.contains ⟨c :: r.registry.latestFirst⟩ name =
        (c.name == name || r.registry.contains name) := rfl
    rw [hcons, Bool.or_eq_true, beq_iff_eq, h.registry, mem_append, mem_singleton, or_comm, eq_comm]

/-! ## Classes -/

theorem reads_superclassName {superclass : Option String} (h : superclass.all isPlainName)
    (ts : List Kind) :
    Reads superclassName (superclassKinds superclass ++ .delimiter .colon :: ts)
      (.delimiter .colon :: ts) superclass := by
  cases superclass with
  | none => exact (reads_eat_of_heads (.cons rfl)).bind .pure
  | some word =>
    have hclose : Heads (fun kind => !kind.isDelimiter .parenClose)
        (.ofWord word :: .delimiter .parenClose :: .delimiter .colon :: ts) := by
      refine (heads_ofWord h _).mono fun kind hkind => ?_
      rw [isDelimiter_of_startsExpression (Bool.and_eq_true_iff.mp hkind).1 rfl]
      rfl
    refine (reads_eat .parenOpen _).bind (.ifNotHeads hclose ?_)
    refine ((reads_expectName h _).map some).bind ?_
    exact (reads_expectDelimiter .parenClose _).discardBind .pure

/-- A class is read and registered outside all blocks. -/
theorem registers_classWith (ts : List Kind) {classes : List String} {c : ClassDef}
    (hc : c.WellFormed) (hname : c.name ∉ classes)
    (hsuperclass : ∀ superclass ∈ c.superclass, superclass ∈ classes) {inner : Read Statement}
    (hbody : ReadsBlock inner c.body) :
    Registers (classWith inner) (c.kinds ++ ts) ts classes (classes ++ [c.name])
      (c.relocate nowhere) := by
  have hcheck := hc.checkClassBody
  have hattributes := hc.attributes
  obtain ⟨name, superclass, body, attributes, span⟩ := c
  obtain rfl : attributes = attributesOfBody body := hattributes
  simp only [ClassDef.kinds, cons_append, append_assoc, nil_append]
  rw [ClassDef.relocate, ← attributesOfBody_relocate, ← Statement.relocateAll_eq_map]
  refine reads_location.bindRegisters (((reads_expectKeyword .classKw _).map _).bindRegisters ?_)
  refine (reads_expectName hc.name _).bindRegisters (.get fun r hr => ?_)
  rw [if_neg (by rw [hr.blockDepth]; exact Nat.lt_irrefl 0)]
  refine (reads_superclassName hc.superclass _).bindRegisters ?_
  refine ((reads_expectDelimiter .colon _).map _).bindRegisters (reads_spanFrom.bindRegisters ?_)
  refine (hbody.block ts).bindRegisters ?_
  rw [hcheck]
  refine (reads_intern initializerName ts).bindRegisters ?_
  exact (registers_registerClass (c := ⟨name, superclass, _, _, {}⟩) hname hsuperclass).bind .pure

/-! ## Programs -/

/-- One statement of a program is read.  If it is a class, it is registered. -/
theorem registers_statement {before after : List Statement} {s : Statement}
    (hp : Program.WellFormed (before ++ s :: after)) {ts : List Kind} (hts : EndsStatement ts) :
    Registers statement (s.kinds ++ ts) ts (classNames before) (classNames (before ++ [s]))
      (s.relocate nowhere) := by
  rcases hp.statements s (by simp) with hs | ⟨c, rfl, hc⟩
  · have hnames : classNames (before ++ [s]) = classNames before := by
      cases s with
      | classDef c => cases hs
      | _ => rw [classNames_append]; exact append_nil _
    rw [hnames]
    exact (reads_statement hs ts hts).registers
  · obtain ⟨-, -, hdistinct⟩ := nodup_append.mp (classNames_append before _ ▸ hp.classes)
    have hname : c.name ∉ classNames before :=
      fun hmem => hdistinct _ hmem _ mem_cons_self rfl
    have hnames : classNames (before ++ [Statement.classDef c]) = classNames before ++ [c.name] :=
      classNames_append before _
    have hclass :=
      registers_classWith ts hc hname (hp.superclasses before c after rfl) (reads_body hc.body)
    obtain ⟨more, hkinds⟩ : ∃ more, c.kinds ++ ts = .keyword .classKw :: more := by
      obtain ⟨name, superclass, body, attributes, span⟩ := c
      exact ⟨_, rfl⟩
    rw [hkinds] at hclass
    rw [hnames, Statement.kinds, hkinds]
    intro r hr
    rw [statement_eq (isEnded_of_before hr.before)]
    have hstatement : Registers (statementWith statement) (.keyword .classKw :: more) ts _ _ _ :=
      reads_peek.bindRegisters (hclass.bind .pure)
    exact hstatement r hr

/-- Statement after statement of a program is read. -/
theorem registers_statements {before rest : List Statement}
    (hp : Program.WellFormed (before ++ rest)) {bound : Nat} (hbound : rest.length ≤ bound) :
    Registers (manyWithin (!·.isEnd) statement bound) (Statement.allKinds rest ++ [Kind.endOfInput])
      [.endOfInput] (classNames before) (classNames (before ++ rest))
      (rest.map (Statement.relocate nowhere)) := by
  induction rest generalizing before bound with
  | nil =>
    rw [append_nil]
    cases bound with
    | zero => exact .pure
    | succ bound => exact reads_peek.bindRegisters .pure
  | cons s rest ih =>
    obtain ⟨bound, rfl⟩ : ∃ n, bound = n + 1 := ⟨bound - 1, by simp at hbound; omega⟩
    have hheads : ∀ x ∈ s :: rest, Heads startsStatement x.kinds := by
      intro x hx
      refine heads_statement ((hp.statements x (by simp [mem_cons.mp hx])).imp_right ?_)
      rintro ⟨c, rfl, -⟩
      exact ⟨c, rfl⟩
    have hfollow : EndsStatement (Statement.allKinds rest ++ [Kind.endOfInput]) := by
      cases rest with
      | nil => exact .cons rfl
      | cons next rest =>
        rw [Statement.allKinds, append_assoc]
        exact ((hheads next (by simp)).append _).mono fun _ hkind =>
          (Bool.and_eq_true_iff.mp hkind).2
    have hstart : Heads (!·.isEnd) s.kinds :=
      (hheads s (by simp)).mono fun _ hkind =>
        (Bool.and_eq_true_iff.mp (Bool.and_eq_true_iff.mp hkind).1).2
    have hstatement := registers_statement hp hfollow
    rw [append_cons before s rest] at hp ⊢
    have hrest := ih hp (Nat.le_of_succ_le_succ hbound)
    rw [Statement.allKinds, append_assoc]
    refine .ifHeads (hstart.append _) (hstatement.bind ?_)
    exact hrest.bind .pure

end Reader

/-- A well-formed program is read from its tokens without spans. -/
theorem readTokens_render_relocate {p : Program} (hp : p.WellFormed) (names : NameTable) :
    (readTokens ((render p).map (Token.relocate nowhere)) names).result =
      .ok (p.map (Statement.relocate nowhere)) := by
  have hbefore := Reader.before_ofTokens (Statement.allKinds p) names
  have houtside : Reader.Outside _ _ [] := ⟨hbefore, rfl, fun name => ⟨nofun, nofun⟩⟩
  have hlength : p.length ≤ (Statement.allKinds p ++ [Kind.endOfInput]).length := by
    have hne : ∀ s ∈ p, s.kinds ≠ [] := fun s hs =>
      (Reader.heads_statement ((hp.statements s hs).imp_right fun ⟨c, hc, _⟩ => ⟨c, hc⟩)).ne_nil
    have hle := Reader.length_le_length_flatMap hne
    rw [length_append, Statement.allKinds_eq_flatMap]
    omega
  have hnone : Program.WellFormed ([] ++ p) := hp
  have hmany : Reader.Registers (Reader.many (!·.isEnd) Reader.statement) _ _ _ _ _ :=
    Reader.reads_remaining.bindRegisters (Reader.registers_statements hnone hlength)
  obtain ⟨r, hrun, -⟩ := hmany _ houtside
  have hprogram : Reader.program (.ofTokens ((render p).map (Token.relocate nowhere)) names) = _ :=
    Reader.bind_eq_of_ok hrun
  rw [readTokens, hprogram]
  rfl

/-- Locations are not looked at. -/
def unlocated : Rereading where
  place := nowhere
  names := id
  place_origin := rfl
  names_intern := NameTable.id_intern

/-- Reading undoes rendering: a well-formed program is read back from its tokens, up to the spans of
its parts, whatever the spans of the tokens are. -/
theorem readTokens_render {p : Program} (hp : p.WellFormed) {tokens : List Token}
    (htokens : tokens.map Token.eraseSpans = (render p).map Token.eraseSpans) (names : NameTable) :
    ∃ q, (readTokens tokens names).result = .ok q ∧ q.map Statement.eraseSpans =
      p.map Statement.eraseSpans := by
  unfold Token.eraseSpans at htokens
  have hread := readTokens_render_relocate hp names
  have hvary : readTokens (tokens.map (Token.relocate nowhere)) names = _ :=
    readTokens_vary unlocated tokens names
  rw [← htokens, hvary, Reading.vary] at hread
  cases hresult : (readTokens tokens names).result with
  | error e =>
    rw [hresult] at hread
    cases hread
  | ok q =>
    rw [hresult] at hread
    exact ⟨q, rfl, Except.ok.inj hread⟩

/-- The operand `self.size`. -/
def ownSize : Expr := .primary ⟨.name "self", [.member "size" {}], {}⟩

/-- `class Shape:` with a docstring and an initializer that declares `size`. -/
def shapeClass : ClassDef where
  name := "Shape"
  superclass := none
  body := [
    .expressions [⟨.primary ⟨.str "a shape", [], {}⟩, {}⟩],
    .function ⟨"__init__", [⟨"self", none, none, {}⟩,
      ⟨"size", some ⟨"int", [], {}⟩, some ⟨.primary ⟨.integer 1, [], {}⟩, {}⟩, {}⟩], none,
      [.assign ⟨[⟨"self", none, [.member "size" {}], {}⟩], .plain,
        [⟨nameOperand "size", {}⟩], {}⟩], {}⟩]
  attributes := [⟨"size", none⟩]
  span := {}

/-- `class Square(Shape):` with a method that has a condition with three branches, the last of them
a call of the method of the superclass. -/
def squareClass : ClassDef where
  name := "Square"
  superclass := some "Shape"
  body := [.function ⟨"area", [⟨"self", none, none, {}⟩], some ⟨"list", [⟨"float", [], {}⟩], {}⟩,
    [.conditional ⟨⟨.compare ownSize [(.greater, .primary ⟨.integer 0, [], {}⟩)], {}⟩,
      [.returns (some [⟨.power ⟨.name "self", [.member "size" {}], {}⟩
        (.sign .sub (.primary ⟨.integer 2, [], {}⟩)), {}⟩]) {}],
      .elseIf
        ⟨⟨.not ownSize, {}⟩, [.pass], .block [.superCall ⟨none, "area", ⟨[], {}⟩, {}⟩], {}⟩, {}⟩],
    {}⟩]
  attributes := []
  span := {}

/-- The two classes, and `for i in range(3), f"n{i}":` with the line `x[1:, i] += i`. -/
def shapes : Program := [
  .classDef shapeClass,
  .classDef squareClass,
  .forLoop "i"
    [⟨.primary ⟨.builtin ⟨"range", ⟨[⟨.primary ⟨.integer 3, [], {}⟩, {}⟩], {}⟩, {}⟩, [], {}⟩, {}⟩,
      ⟨.primary ⟨.formatted [.literal "n", .embedded ⟨nameOperand "i", {}⟩], [], {}⟩, {}⟩]
    [.assign ⟨[⟨"x", none, [.subscript [.range (some ⟨.primary ⟨.integer 1, [], {}⟩, {}⟩) none none,
      .index ⟨nameOperand "i", {}⟩]], {}⟩], .augmented .add, [⟨nameOperand "i", {}⟩], {}⟩] {}]

/-- The classes and the loop are read back. -/
theorem readTokens_render_shapes :
    shapes.WellFormed ∧ ∃ q, (readTokens (render shapes) {}).result = .ok q ∧
      q.map Statement.eraseSpans = shapes.map Statement.eraseSpans := by
  have hshape : shapeClass.WellFormed := ⟨by decide, rfl, by decide, rfl, by decide, rfl⟩
  have hsquare : squareClass.WellFormed := ⟨by decide, by decide, by decide, rfl, by decide, rfl⟩
  have hp : shapes.WellFormed := by
    refine ⟨?_, by decide, ?_⟩
    · simp only [shapes, forall_mem_cons]
      exact ⟨.inr ⟨_, rfl, hshape⟩, .inr ⟨_, rfl, hsquare⟩, .inl (by decide),
        forall_mem_nil _⟩
    · intro before c after h superclass hsuperclass
      match before, h with
      | [], h =>
        obtain rfl : shapeClass = c := Statement.classDef.inj (cons.inj h).1
        exact absurd hsuperclass (by nofun)
      | [first], h =>
        obtain ⟨rfl, hrest⟩ := cons.inj h
        obtain rfl : squareClass = c := Statement.classDef.inj (cons.inj hrest).1
        obtain rfl : "Shape" = superclass := Option.some.inj hsuperclass
        exact mem_singleton_self _
      | [_, _], h => exact absurd (cons.inj (cons.inj (cons.inj h).2).2).1 (by nofun)
      | _ :: _ :: _ :: before, h =>
        exact absurd (cons.inj (cons.inj (cons.inj h).2).2).2 (by simp)
  exact ⟨hp, readTokens_render hp rfl {}⟩

end Offside
