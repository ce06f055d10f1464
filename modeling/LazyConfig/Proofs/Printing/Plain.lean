import LazyConfig.Program
import LazyConfig.Proofs.Parsing.RoundTrip
import LazyConfig.Proofs.Tables
set_option autoImplicit false

/-!
# Printing: programs for plain data

Plain data has a program that stands for it, with a string for each text.  `express` cuts the
empty text as a literal without characters and a reader gives a string without pieces, so the
strings are a parameter here: both programs are printed alike, the second is canonical, and its
core term has the form of the data.

The keys of a dict are in ascending order wherever a value comes from, and that is why no key
is claimed twice and why sorting changes nothing.
-/

namespace LazyConfig

/-! ## Data without functions -/

mutual

/-- Plain data among data that may have functions. -/
def Data.widen : Plain → Data FunctionKind
  | .text s => .text s
  | .list items => .list (widenItems items)
  | .dict entries => .dict (widenEntries entries)
  | .function f => nomatch f

/-- The items of a list among data that may have functions. -/
def widenItems : List Plain → List (Data FunctionKind)
  | [] => []
  | d :: rest => d.widen :: widenItems rest

/-- The entries of a dict among data that may have functions. -/
def widenEntries : List (String × Plain) → List (String × Data FunctionKind)
  | [] => []
  | (key, d) :: rest => (key, d.widen) :: widenEntries rest

end

mutual

theorem Data.widen_injective : ∀ p q : Plain, p.widen = q.widen → p = q
  | .text _, q, h => by
    cases q with
    | text s => exact congrArg Data.text (Data.text.inj h)
    | list items => exact nomatch h
    | dict entries => exact nomatch h
    | function f => exact nomatch f
  | .list ps, q, h => by
    cases q with
    | text s => exact nomatch h
    | list qs => exact congrArg Data.list (widenItems_injective ps qs (Data.list.inj h))
    | dict entries => exact nomatch h
    | function f => exact nomatch f
  | .dict ps, q, h => by
    cases q with
    | text s => exact nomatch h
    | list items => exact nomatch h
    | dict qs => exact congrArg Data.dict (widenEntries_injective ps qs (Data.dict.inj h))
    | function f => exact nomatch f
  | .function f, _, _ => nomatch f

theorem widenItems_injective : ∀ ps qs : List Plain, widenItems ps = widenItems qs → ps = qs
  | [], [], _ => rfl
  | p :: ps, q :: qs, h => by
    obtain ⟨hfirst, hrest⟩ := List.cons.inj h
    rw [p.widen_injective q hfirst, widenItems_injective ps qs hrest]

theorem widenEntries_injective : ∀ ps qs : List (String × Plain),
    widenEntries ps = widenEntries qs → ps = qs
  | [], [], _ => rfl
  | (key, p) :: ps, (key', q) :: qs, h => by
    obtain ⟨hfirst, hrest⟩ := List.cons.inj h
    obtain ⟨rfl, hpq⟩ := Prod.mk.inj hfirst
    rw [p.widen_injective q hpq, widenEntries_injective ps qs hrest]

end

mutual

/-- Whether there is a function somewhere in the data. -/
def Data.hasFunction {φ : Type} : Data φ → Bool
  | .text _ => false
  | .list items => anyHasFunction items
  | .dict entries => anyEntryHasFunction entries
  | .function _ => true

/-- Whether there is a function somewhere in the items. -/
def anyHasFunction {φ : Type} : List (Data φ) → Bool
  | [] => false
  | d :: rest => d.hasFunction || anyHasFunction rest

/-- Whether there is a function somewhere in the entries. -/
def anyEntryHasFunction {φ : Type} : List (String × Data φ) → Bool
  | [] => false
  | (_, d) :: rest => d.hasFunction || anyEntryHasFunction rest

end

mutual

theorem Data.hasFunction_widen : ∀ p : Plain, p.widen.hasFunction = false
  | .text _ => rfl
  | .list items => anyHasFunction_widenItems items
  | .dict entries => anyEntryHasFunction_widenEntries entries
  | .function f => nomatch f

theorem anyHasFunction_widenItems : ∀ ps : List Plain, anyHasFunction (widenItems ps) = false
  | [] => rfl
  | p :: rest => by
    rw [widenItems, anyHasFunction, p.hasFunction_widen, anyHasFunction_widenItems rest,
      Bool.or_self]

theorem anyEntryHasFunction_widenEntries : ∀ ps : List (String × Plain),
    anyEntryHasFunction (widenEntries ps) = false
  | [] => rfl
  | (_, p) :: rest => by
    rw [widenEntries, anyEntryHasFunction, p.hasFunction_widen,
      anyEntryHasFunction_widenEntries rest, Bool.or_self]

end

theorem anyHasFunction_of_mem {φ : Type} {d : Data φ} {ds : List (Data φ)} (hd : d ∈ ds)
    (h : d.hasFunction = true) : anyHasFunction ds = true := by
  induction ds with
  | nil => exact absurd hd List.not_mem_nil
  | cons c rest ih =>
    rw [anyHasFunction]
    rcases List.mem_cons.mp hd with rfl | hd
    · rw [h, Bool.true_or]
    · rw [ih hd, Bool.or_true]

theorem anyEntryHasFunction_of_mem {φ : Type} {e : String × Data φ} {es : List (String × Data φ)}
    (he : e ∈ es) (h : e.2.hasFunction = true) : anyEntryHasFunction es = true := by
  induction es with
  | nil => exact absurd he List.not_mem_nil
  | cons c rest ih =>
    rw [anyEntryHasFunction]
    rcases List.mem_cons.mp he with rfl | he
    · rw [h, Bool.true_or]
    · rw [ih he, Bool.or_true]

/-! ## Ascending keys -/

mutual

/-- The keys of every dict in the data strictly ascend. -/
def Data.Ascending {φ : Type} : Data φ → Prop
  | .text _ => True
  | .list items => ItemsAscending items
  | .dict entries => (entries.map Prod.fst).Pairwise (· < ·) ∧ EntriesAscending entries
  | .function _ => True

/-- The keys of every dict in the items strictly ascend. -/
def ItemsAscending {φ : Type} : List (Data φ) → Prop
  | [] => True
  | d :: rest => d.Ascending ∧ ItemsAscending rest

/-- The keys of every dict in the entries strictly ascend. -/
def EntriesAscending {φ : Type} : List (String × Data φ) → Prop
  | [] => True
  | (_, d) :: rest => d.Ascending ∧ EntriesAscending rest

end

theorem keys_widenEntries (ps : List (String × Plain)) :
    (widenEntries ps).map Prod.fst = ps.map Prod.fst := by
  induction ps with
  | nil => rfl
  | cons p rest ih => rw [widenEntries, List.map_cons, List.map_cons, ih]

mutual

theorem Data.ascending_widen : ∀ p : Plain, p.widen.Ascending → p.Ascending
  | .text _, _ => trivial
  | .list items, h => itemsAscending_widenItems items h
  | .dict entries, h => by
    refine ⟨?_, entriesAscending_widenEntries entries h.2⟩
    rw [← keys_widenEntries]
    exact h.1
  | .function f, _ => nomatch f

theorem itemsAscending_widenItems : ∀ ps : List Plain,
    ItemsAscending (widenItems ps) → ItemsAscending ps
  | [], _ => trivial
  | p :: rest, h => ⟨p.ascending_widen h.1, itemsAscending_widenItems rest h.2⟩

theorem entriesAscending_widenEntries : ∀ ps : List (String × Plain),
    EntriesAscending (widenEntries ps) → EntriesAscending ps
  | [], _ => trivial
  | (_, p) :: rest, h => ⟨p.ascending_widen h.1, entriesAscending_widenEntries rest h.2⟩

end

/-! ## Programs for plain data -/

mutual

/-- The program that stands for plain data, given the string of each text. -/
def Data.toExpr (string : String → Template Expr) : Plain → Expr
  | .text s => .str (string s)
  | .list items => .list (itemExprs string items)
  | .dict entries => .dict false (entryBindings string entries)
  | .function f => nomatch f

/-- The programs that stand for the items of a list. -/
def itemExprs (string : String → Template Expr) : List Plain → List Expr
  | [] => []
  | d :: rest => d.toExpr string :: itemExprs string rest

/-- The bindings that stand for the entries of a dict. -/
def entryBindings (string : String → Template Expr) :
    List (String × Plain) → List (Binding Expr Expr)
  | [] => []
  | (key, d) :: rest => .equation (.str (string key)) (d.toExpr string) :: entryBindings string rest

end

/-- The canonical template of a text. -/
def Template.cleanText (s : String) : Template Expr := if s = "" then [] else [.literal s]

namespace Template

theorem renderPieces_cleanText (s : String) :
    renderPieces (cleanText s) = renderPieces (ofText s) := by
  unfold cleanText
  split
  · next h =>
    subst h
    rfl
  · rfl

theorem asKey_cleanText (s text text' : String) :
    asKey (.str (cleanText s)) text = asKey (.str (ofText s)) text' := by
  unfold cleanText
  split
  · next h =>
    subst h
    rfl
  · rfl

theorem isCanonical_cleanText (s : String) : (Expr.str (cleanText s)).isCanonical = true := by
  unfold cleanText
  split
  · rfl
  · next h => simp [Expr.isCanonical, isClean, canonicalPieces, h]

theorem staticKey_cleanText (s : String) (tracing : Bool) :
    staticKey (.str (cleanText s)) tracing = (.ok s, []) := by
  unfold cleanText
  split
  · next h =>
    subst h
    rfl
  · rfl

theorem toTerm_cleanText (s : String) (tracing : Bool) :
    (Expr.str (cleanText s)).toTerm tracing = (.ok (.text s), []) := by
  unfold cleanText
  split
  · next h =>
    subst h
    rfl
  · rfl

end Template

/-- The program of plain data needs no parentheses. -/
theorem enclose_toExpr (string : String → Template Expr) (p : Plain) (place : Place)
    (text : String) : enclose (p.toExpr string) place text = text := by
  cases p with
  | text s => cases place <;> rfl
  | list items => cases place <;> rfl
  | dict entries => cases place <;> rfl
  | function f => exact nomatch f

mutual

/-- How the empty text is cut does not show. -/
theorem renderBare_toExpr : ∀ p : Plain,
    (p.toExpr Template.ofText).renderBare = (p.toExpr Template.cleanText).renderBare
  | .text s => by
    simp only [Data.toExpr, Expr.renderBare, Template.renderPieces_cleanText]
  | .list items => by
    simp only [Data.toExpr, Expr.renderBare, renderItems_itemExprs items]
  | .dict entries => by
    simp only [Data.toExpr, Expr.renderBare, renderEntries_entryBindings entries]
  | .function f => nomatch f

theorem renderItems_itemExprs : ∀ ps : List Plain,
    renderItems (itemExprs Template.ofText ps) = renderItems (itemExprs Template.cleanText ps)
  | [] => rfl
  | p :: rest => by
    simp only [itemExprs, renderItems, enclose_toExpr, renderBare_toExpr p,
      renderItems_itemExprs rest]

theorem renderEntries_entryBindings : ∀ ps : List (String × Plain),
    renderEntries (entryBindings Template.ofText ps) =
      renderEntries (entryBindings Template.cleanText ps)
  | [] => rfl
  | (key, p) :: rest => by
    simp only [entryBindings, renderEntries, renderBare_toExpr p,
      renderEntries_entryBindings rest]
    rw [Template.asKey_cleanText]

end

mutual

theorem isCanonical_toExpr : ∀ p : Plain, (p.toExpr Template.cleanText).isCanonical = true
  | .text s => Template.isCanonical_cleanText s
  | .list items => canonicalItems_itemExprs items
  | .dict entries => canonicalEntries_entryBindings entries
  | .function f => nomatch f

theorem canonicalItems_itemExprs : ∀ ps : List Plain,
    canonicalItems (itemExprs Template.cleanText ps) = true
  | [] => rfl
  | p :: rest => by
    rw [itemExprs, canonicalItems, isCanonical_toExpr p, canonicalItems_itemExprs rest,
      Bool.and_self]

theorem canonicalEntries_entryBindings : ∀ ps : List (String × Plain),
    canonicalEntries (entryBindings Template.cleanText ps) = true
  | [] => rfl
  | (key, p) :: rest => by
    rw [entryBindings, canonicalEntries, Template.isCanonical_cleanText, isCanonical_toExpr p,
      canonicalEntries_entryBindings rest, Bool.and_self, Bool.and_self]

end

/-! ## Core terms for plain data -/

mutual

/-- The core term of plain data. -/
def Data.toTerm : Plain → Term
  | .text s => .text s
  | .list items => .list (dataTerms items)
  | .dict entries => .dict (dataEntries entries)
  | .function f => nomatch f

/-- The core terms of the items of a list. -/
def dataTerms : List Plain → List Term
  | [] => []
  | d :: rest => d.toTerm :: dataTerms rest

/-- The core terms of the entries of a dict. -/
def dataEntries : List (String × Plain) → List (String × Term)
  | [] => []
  | (key, d) :: rest => (key, d.toTerm) :: dataEntries rest

end

theorem keys_dataEntries (ps : List (String × Plain)) :
    (dataEntries ps).map Prod.fst = ps.map Prod.fst := by
  induction ps with
  | nil => rfl
  | cons p rest ih => rw [dataEntries, List.map_cons, List.map_cons, ih]

theorem plainDict_dataEntries {ps : List (String × Plain)}
    (h : (ps.map Prod.fst).Pairwise (· < ·)) :
    plainDict ⟨dataEntries ps, []⟩ = .dict (dataEntries ps) := by
  rw [← keys_dataEntries] at h
  rw [plainDict, List.map_nil, List.append_nil, Term.ofEntries, sortBy_of_pairwise h]

mutual

/-- The core term of the program is that of the data. -/
theorem toTerm_toExpr (tracing : Bool) : ∀ p : Plain, p.Ascending →
    (p.toExpr Template.cleanText).toTerm tracing = (.ok p.toTerm, [])
  | .text s, _ => Template.toTerm_cleanText s tracing
  | .list items, h => by
    have hitems := itemTerms_itemExprs tracing items h
    rw [Data.toExpr, Expr.toTerm, Lowering.bind_of_ok hitems]
    rfl
  | .dict entries, h => by
    have hclaimed : ∀ k ∈ entries.map Prod.fst, k ∉ ([] : List String) := fun _ _ =>
      List.not_mem_nil
    have hentries := entryTerms_entryBindings tracing entries [] hclaimed h.1 h.2
    rw [Data.toExpr, Expr.toTerm, Lowering.bind_of_ok hentries, plainDict_dataEntries h.1]
    rfl
  | .function f, _ => nomatch f

theorem itemTerms_itemExprs (tracing : Bool) : ∀ ps : List Plain, ItemsAscending ps →
    itemTerms (itemExprs Template.cleanText ps) tracing = (.ok (dataTerms ps), [])
  | [], _ => rfl
  | p :: rest, h => by
    rw [itemExprs, itemTerms, Lowering.bind_of_ok (toTerm_toExpr tracing p h.1),
      Lowering.bind_of_ok (itemTerms_itemExprs tracing rest h.2)]
    rfl

theorem entryTerms_entryBindings (tracing : Bool) : ∀ (ps : List (String × Plain))
    (claimed : List String), (∀ k ∈ ps.map Prod.fst, k ∉ claimed) →
    (ps.map Prod.fst).Pairwise (· < ·) → EntriesAscending ps →
    entryTerms claimed (entryBindings Template.cleanText ps) tracing =
      (.ok ⟨dataEntries ps, []⟩, [])
  | [], _, _, _, _ => rfl
  | (key, p) :: rest, claimed, hclaimed, hkeys, h => by
    obtain ⟨hfirst, hrest⟩ := List.pairwise_cons.mp hkeys
    have hnew : claimed.contains key = false := by
      simpa using hclaimed key List.mem_cons_self
    have hclaim : claim .dict claimed key tracing = (.ok (key :: claimed), []) := by
      rw [claim, hnew]
      rfl
    have hlater : ∀ k ∈ rest.map Prod.fst, k ∉ key :: claimed := by
      intro k hk hmem
      rcases List.mem_cons.mp hmem with rfl | hmem
      · exact String.lt_irrefl k (hfirst k hk)
      · exact hclaimed k (List.mem_cons_of_mem _ hk) hmem
    rw [entryBindings, entryTerms, Lowering.bind_of_ok (Template.staticKey_cleanText key tracing),
      Lowering.bind_of_ok hclaim, Lowering.bind_of_ok (toTerm_toExpr tracing p h.1),
      Lowering.bind_of_ok (entryTerms_entryBindings tracing rest _ hlater hrest h.2)]
    rfl

end

/-- The text that a program of plain data is printed as is read, and its core term is that of
the data. -/
theorem toTerm_render (p : Plain) (h : p.Ascending) :
    (Source.text ((p.toExpr Template.ofText).render .normal)).toTerm = .ok p.toTerm := by
  have hread : readProgram .standard ((p.toExpr Template.ofText).render .normal) =
      .accepted (p.toExpr Template.cleanText) := by
    rw [Expr.render_normal, renderBare_toExpr, ← Expr.render_normal]
    exact readTraced_render _ (isCanonical_toExpr p) .normal false
  have hlower : (p.toExpr Template.cleanText).lower = .ok p.toTerm := by
    rw [Expr.lower, toTerm_toExpr false p h]
  have hsource : readSource ((p.toExpr Template.ofText).render .normal) =
      .ok (p.toExpr Template.cleanText) := by
    rw [readSource, hread]
  show (readSource _ >>= lowerSource) = _
  rw [hsource]
  show lowerSource _ = _
  rw [lowerSource, hlower]

end LazyConfig
