import ClosureLisp.Proofs.Checking
import ClosureLisp.Proofs.Derivations
import ClosureLisp.Proofs.Lexing

/-!
# The parts of a program and where they start

A warning names its place only. In a program that has been read this is enough to tell which part
it is about: every part starts at a token of its own, except that the lambda of a function starts
where its define does. `Expr.sites` lists the parts apart from defines, each with the lambdas
around it and with what literal tests say of it, and no two of them start at one place
(`Reader.site_unique`).
-/

namespace ClosureLisp

/-- A part of an expression where it stands: inside the given lambdas, innermost first, and live
unless a literal test rules it out. -/
structure Site where
  expr : Expr
  binders : List Binder
  live : Bool

namespace Expr

/-- Whether a test can come out as the given value: a boolean literal only as its own. -/
def mayBe (value : Bool) : Expr → Bool
  | .bool _ literal => literal == value
  | _ => true

mutual

/-- The parts of an expression that stands inside the given lambdas, apart from defines. -/
def sites (binders : List Binder) (live : Bool) : Expr → List Site
  | .int span value => [⟨.int span value, binders, live⟩]
  | .bool span value => [⟨.bool span value, binders, live⟩]
  | .var span name => [⟨.var span name, binders, live⟩]
  | .ifThen span test consequent =>
      ⟨.ifThen span test consequent, binders, live⟩ :: (sites binders live test ++
        sites binders (live && test.mayBe true) consequent)
  | .ifElse span test consequent alternative =>
      ⟨.ifElse span test consequent alternative, binders, live⟩ :: (sites binders live test ++
        (sites binders (live && test.mayBe true) consequent ++
          sites binders (live && test.mayBe false) alternative))
  | .define _ _ value => sites binders live value
  | .lambda span self parameters body =>
      ⟨.lambda span self parameters body, binders, live⟩ ::
        sites (⟨self, parameters⟩ :: binders) live body
  | .call span callee arguments =>
      ⟨.call span callee arguments, binders, live⟩ :: (sites binders live callee ++
        sitesAll binders live arguments)

/-- The parts of expressions in a row. -/
def sitesAll (binders : List Binder) (live : Bool) : List Expr → List Site
  | [] => []
  | expr :: rest => sites binders live expr ++ sitesAll binders live rest

end

mutual

/-- The places where the parts of an expression start, apart from defines. -/
def starts : Expr → List Position
  | .int span _ => [span.start]
  | .bool span _ => [span.start]
  | .var span _ => [span.start]
  | .ifThen span test consequent => span.start :: (starts test ++ starts consequent)
  | .ifElse span test consequent alternative =>
      span.start :: (starts test ++ (starts consequent ++ starts alternative))
  | .define _ _ value => starts value
  | .lambda span _ _ body => span.start :: starts body
  | .call span callee arguments => span.start :: (starts callee ++ startsAll arguments)

def startsAll : List Expr → List Position
  | [] => []
  | expr :: rest => starts expr ++ startsAll rest

end

variable {part whole expr : Expr} {exprs : List Expr} {inner outer binders : List Binder}
  {live : Bool} {site : Site}

theorem mem_sitesAll : site ∈ sitesAll binders live exprs ↔
    ∃ expr ∈ exprs, site ∈ expr.sites binders live := by
  induction exprs with
  | nil => simp [sitesAll]
  | cons expr rest ih => simp [sitesAll, ih]

theorem sites_subset_sitesAll (listed : expr ∈ exprs) :
    expr.sites binders live ⊆ sitesAll binders live exprs :=
  fun _ inside => mem_sitesAll.mpr ⟨expr, listed, inside⟩

theorem self_mem_sites (plain : ∀ span name value, expr ≠ .define span name value) :
    ⟨expr, binders, live⟩ ∈ expr.sites binders live := by
  cases expr with
  | define span name value => exact absurd rfl (plain span name value)
  | _ => exact List.mem_cons_self

section Subsets

variable {span : Span} {test consequent alternative callee body : Expr} {arguments : List Expr}

theorem test_sites_subset_ifThen :
    test.sites binders live ⊆ (ifThen span test consequent).sites binders live :=
  fun _ inside => .tail _ (List.mem_append_left _ inside)

theorem consequent_sites_subset_ifThen :
    consequent.sites binders (live && test.mayBe true) ⊆
      (ifThen span test consequent).sites binders live :=
  fun _ inside => .tail _ (List.mem_append_right _ inside)

theorem test_sites_subset_ifElse :
    test.sites binders live ⊆ (ifElse span test consequent alternative).sites binders live :=
  fun _ inside => .tail _ (List.mem_append_left _ inside)

theorem consequent_sites_subset_ifElse :
    consequent.sites binders (live && test.mayBe true) ⊆
      (ifElse span test consequent alternative).sites binders live :=
  fun _ inside => .tail _ (List.mem_append_right _ (List.mem_append_left _ inside))

theorem alternative_sites_subset_ifElse :
    alternative.sites binders (live && test.mayBe false) ⊆
      (ifElse span test consequent alternative).sites binders live :=
  fun _ inside => .tail _ (List.mem_append_right _ (List.mem_append_right _ inside))

theorem body_sites_subset_lambda {self : Option Name} {parameters : List Name} :
    body.sites (⟨self, parameters⟩ :: binders) live ⊆
      (lambda span self parameters body).sites binders live :=
  List.subset_cons_self _ _

theorem callee_sites_subset_call :
    callee.sites binders live ⊆ (call span callee arguments).sites binders live :=
  fun _ inside => .tail _ (List.mem_append_left _ inside)

theorem arguments_sites_subset_call :
    sitesAll binders live arguments ⊆ (call span callee arguments).sites binders live :=
  fun _ inside => .tail _ (List.mem_append_right _ inside)

end Subsets

/-- The parts of a child are parts, live or not. -/
theorem exists_sites_subset {child : Expr} (listed : child ∈ whole.children) :
    ∃ alive, child.sites (whole.opened ++ binders) alive ⊆ whole.sites binders live := by
  cases whole with
  | int span value | bool span value | var span name => exact absurd listed List.not_mem_nil
  | ifThen span test consequent =>
      rcases List.mem_pair.mp listed with rfl | rfl
      · exact ⟨_, test_sites_subset_ifThen⟩
      · exact ⟨_, consequent_sites_subset_ifThen⟩
  | ifElse span test consequent alternative =>
      rcases List.mem_cons.mp listed with rfl | listed
      · exact ⟨_, test_sites_subset_ifElse⟩
      · rcases List.mem_pair.mp listed with rfl | rfl
        · exact ⟨_, consequent_sites_subset_ifElse⟩
        · exact ⟨_, alternative_sites_subset_ifElse⟩
  | define span name value =>
      rw [List.mem_singleton.mp listed]
      exact ⟨live, List.Subset.refl _⟩
  | lambda span self parameters body =>
      rw [List.mem_singleton.mp listed]
      exact ⟨live, body_sites_subset_lambda⟩
  | call span callee arguments =>
      rcases List.mem_cons.mp listed with rfl | listed
      · exact ⟨_, callee_sites_subset_call⟩
      · exact ⟨_, List.Subset.trans (sites_subset_sitesAll listed) arguments_sites_subset_call⟩

/-- The parts of a part are parts. -/
theorem Occurs.exists_sites_subset (occurs : Occurs part inner outer whole) (live : Bool) :
    ∃ alive, part.sites inner alive ⊆ whole.sites outer live := by
  induction occurs generalizing live with
  | refl => exact ⟨live, List.Subset.refl _⟩
  | inside listed _ ih =>
      obtain ⟨between, further⟩ := Expr.exists_sites_subset listed
      obtain ⟨alive, subset⟩ := ih between
      exact ⟨alive, List.Subset.trans subset further⟩

/-! ## Where parts start -/

theorem map_start_sites (expr : Expr) : ∀ (binders : List Binder) (live : Bool),
    (expr.sites binders live).map (fun site => site.expr.start) = expr.starts := by
  induction expr using Expr.induction with
  | int span value | bool span value | var span name => exact fun _ _ => rfl
  | ifThen span test consequent ihTest ihConsequent =>
      intro binders live
      rw [sites, starts, List.map_cons, List.map_append, ihTest, ihConsequent]
      rfl
  | ifElse span test consequent alternative ihTest ihConsequent ihAlternative =>
      intro binders live
      rw [sites, starts, List.map_cons, List.map_append, List.map_append, ihTest, ihConsequent,
        ihAlternative]
      rfl
  | define span name value ih => exact ih
  | lambda span self parameters body ih =>
      intro binders live
      rw [sites, starts, List.map_cons, ih]
      rfl
  | call span callee arguments ihCallee ihArguments =>
      intro binders live
      have each : (sitesAll binders live arguments).map (fun site => site.expr.start) =
          startsAll arguments := by
        clear ihCallee
        induction arguments with
        | nil => rfl
        | cons argument rest ih =>
            obtain ⟨first, others⟩ := List.forall_mem_cons.mp ihArguments
            rw [sitesAll, startsAll, List.map_append, first, ih others]
      rw [sites, starts, List.map_cons, List.map_append, ihCallee, each]
      rfl

theorem map_start_sitesAll (exprs : List Expr) (binders : List Binder) (live : Bool) :
    (sitesAll binders live exprs).map (fun site => site.expr.start) = startsAll exprs := by
  induction exprs with
  | nil => rfl
  | cons expr rest ih => rw [sitesAll, startsAll, List.map_append, map_start_sites, ih]

theorem starts_named (name : Name) (value : Expr) : (value.named name).starts = value.starts := by
  cases value with
  | lambda span self parameters body => cases self <;> rfl
  | _ => rfl

theorem starts_conditional {span : Span} {operands : List Expr}
    (made : Reader.conditional? span operands = some expr) :
    expr.starts = span.start :: startsAll operands := by
  unfold Reader.conditional? at made
  split at made <;> cases made <;> simp [starts, startsAll]

end Expr

/-- What starts at tokens inside a form starts at tokens of the form behind the first one. -/
theorem sublist_places (front : List Token) {starts : List Position} {opening : Token}
    {inner back : List Token}
    (inside : starts.Sublist (inner.map Token.place)) :
    (opening.place :: starts).Sublist
      ((opening :: (front ++ (inner ++ back))).map Token.place) := by
  rw [List.map_cons, List.map_append, List.map_append]
  exact ((inside.trans (List.sublist_append_left _ _)).trans
    (List.sublist_append_right _ _)).cons_cons _

mutual

/-- Parts start at tokens, in the order in which they are written. -/
theorem Written.starts_sublist {tokens : List Token} {expr : Expr} :
    Written tokens expr → expr.starts.Sublist (tokens.map Token.place)
  | .integer _ _ => .refl _
  | .bool _ => .refl _
  | .symbol _ => .refl _
  | .conditional _ _ written _ made => by
      rw [Expr.starts_conditional made]
      exact sublist_places [_] written.starts_sublist
  | .define _ _ _ written _ => by
      rw [Expr.starts, Expr.starts_named]
      exact (List.sublist_cons_self _ _).trans
        (sublist_places [_, _] written.starts_sublist)
  | .defineFunction _ _ _ _ _ written _ => by
      rw [List.append_cons]
      exact sublist_places (_ :: _ :: (_ ++ [_])) written.starts_sublist
  | .lambda _ _ _ _ _ written _ => by
      rw [List.append_cons]
      exact sublist_places (_ :: _ :: (_ ++ [_])) written.starts_sublist
  | .call _ _ head tail _ => by
      have inside := head.starts_sublist.append tail.starts_sublist
      rw [← List.map_append] at inside
      rw [Expr.starts, ← List.append_assoc]
      exact sublist_places [] inside

theorem WrittenAll.starts_sublist {tokens : List Token} {exprs : List Expr} :
    WrittenAll tokens exprs → (Expr.startsAll exprs).Sublist (tokens.map Token.place)
  | .nil => .refl _
  | .cons head tail => by
      rw [Expr.startsAll, List.map_append]
      exact head.starts_sublist.append tail.starts_sublist

end

namespace Reader

variable {text : Bytes} {exprs : List Expr}

theorem nodup_places (text : Bytes) : ((Lexed.ofBytes text).tokens.map Token.place).Nodup := by
  have splits : Lexed.Splits [] (Glyph.ofBytes text) (Lexed.ofBytes text) :=
    Lexed.splits_ofGlyphs rfl _
  have increasing := (splits.increasing fun glyph listed =>
    ((Glyph.decodes_ofBytes text).isDecoded glyph listed).bytes_ne_nil).1
  rw [Lexed.offsets] at increasing
  have offsets := (List.pairwise_append.mp increasing).1
  rw [List.pairwise_map] at offsets
  rw [List.Nodup, List.pairwise_map]
  exact offsets.imp fun before same => absurd (congrArg Position.offset same) before.ne

/-- The parts of a part of a form are parts of the program. -/
theorem exists_sites_subset_sitesAll {form part : Expr} {inner : List Binder}
    (listed : form ∈ exprs) (occurs : Expr.Occurs part inner [] form) :
    ∃ alive, part.sites inner alive ⊆ Expr.sitesAll [] true exprs := by
  obtain ⟨alive, subset⟩ := occurs.exists_sites_subset true
  exact ⟨alive, List.Subset.trans subset (Expr.sites_subset_sitesAll listed)⟩

/-- No two parts of a program start at one place, apart from defines. -/
theorem site_unique (parsed : parse text = .ok exprs) {first second : Site}
    (firstListed : first ∈ Expr.sitesAll [] true exprs)
    (secondListed : second ∈ Expr.sitesAll [] true exprs)
    (same : first.expr.start = second.expr.start) : first = second := by
  have distinct := (nodup_places text).sublist (parse_eq_ok_iff.mp parsed).starts_sublist
  rw [← Expr.map_start_sitesAll exprs [] true] at distinct
  exact List.inj_on_of_nodup_map distinct firstListed secondListed same

/-- The place of a part tells which part it is and which lambdas stand around it. -/
theorem occurs_unique (parsed : parse text = .ok exprs) {form other part another : Expr}
    {inner between : List Binder} (formListed : form ∈ exprs) (otherListed : other ∈ exprs)
    (occurs : Expr.Occurs part inner [] form) (occurs' : Expr.Occurs another between [] other)
    (plain : ∀ span name value, part ≠ .define span name value)
    (plain' : ∀ span name value, another ≠ .define span name value)
    (same : part.start = another.start) : part = another ∧ inner = between := by
  obtain ⟨alive, subset⟩ := exists_sites_subset_sitesAll formListed occurs
  obtain ⟨alive', subset'⟩ := exists_sites_subset_sitesAll otherListed occurs'
  have unique := site_unique parsed (subset (Expr.self_mem_sites plain))
    (subset' (Expr.self_mem_sites plain')) same
  exact ⟨congrArg Site.expr unique, congrArg Site.binders unique⟩

end Reader

end ClosureLisp
