import DeletionGuard.Text.Basic

/-!
Paths as text names them: a root and the components after it. Empty components and `.` are
dropped, `..` is kept. Exactly two leading slashes are a root of their own.
-/
namespace DeletionGuard

inductive Root where
  | relative
  | single
  | double
  deriving DecidableEq, Repr

def Root.text : Root → String
  | .relative => ""
  | .single => "/"
  | .double => "//"

def Root.ofSlashes : Nat → Root
  | 0 => .relative
  | 2 => .double
  | _ => .single

structure Path where
  root : Root
  parts : List String
  deriving DecidableEq, Repr

namespace Path

/-- Whether a piece between two slashes is a component: it is neither empty nor `.`. -/
def isPart (s : String) : Bool :=
  s ≠ "" && s ≠ "."

def ofString (s : String) : Path :=
  ⟨Root.ofSlashes (s.toList.takeWhile (· = '/')).length, (Text.cut '/' s).filter isPart⟩

/-- The text of a path; the empty relative path is `.`. -/
def text (p : Path) : String :=
  if p.root = .relative ∧ p.parts = [] then "." else p.root.text ++ Text.glue '/' p.parts

instance : ToString Path := ⟨text⟩

def isAbsolute (p : Path) : Bool :=
  p.root ≠ .relative

def join (p q : Path) : Path :=
  if q.isAbsolute then q else ⟨p.root, p.parts ++ q.parts⟩

def child (p : Path) (name : String) : Path :=
  ⟨p.root, p.parts ++ [name]⟩

def parent (p : Path) : Path :=
  ⟨p.root, p.parts.dropLast⟩

def name (p : Path) : String :=
  p.parts.getLastD ""

def ancestors (p : Path) : List Path :=
  (List.range p.parts.length).reverse.map fun n => ⟨p.root, p.parts.take n⟩

/-- Whether a path is the boundary or lies below it. -/
def isWithin (p boundary : Path) : Bool :=
  p = boundary || p.ancestors.contains boundary

/-- The text of a path as seen from a directory it lies in. -/
def keyFrom (directory p : Path) : Option String :=
  if p.root = directory.root && directory.parts.isPrefixOf p.parts then
    some (text ⟨.relative, p.parts.drop directory.parts.length⟩)
  else none

/-- One step up in the text: it takes the last component away, or adds `..` where a relative path
has none to take. -/
def ascend (p : Path) : Path :=
  if p.isAbsolute then p.parent
  else if p.parts = [] || p.parts.getLast? = some ".." then p.child ".."
  else p.parent

/-- The path without `..`, as far as the text alone allows. -/
def collapse (p : Path) : Path :=
  p.parts.foldl (fun q s => if s = ".." then q.ascend else q.child s) ⟨p.root, []⟩

@[simp] theorem root_child (p : Path) (n : String) : (p.child n).root = p.root := rfl

@[simp] theorem parts_child (p : Path) (n : String) : (p.child n).parts = p.parts ++ [n] := rfl

@[simp] theorem parent_child (p : Path) (n : String) : (p.child n).parent = p := by
  simp [parent, child]

theorem mem_ancestors (p q : Path) :
    q ∈ p.ancestors ↔ q.root = p.root ∧ ∃ n, n < p.parts.length ∧ q.parts = p.parts.take n := by
  obtain ⟨r, ps⟩ := q
  simp only [ancestors, List.mem_map, List.mem_reverse, List.mem_range, Path.mk.injEq]
  constructor
  · rintro ⟨n, hn, hr, hp⟩
    exact ⟨hr.symm, n, hn, hp.symm⟩
  · rintro ⟨hr, n, hn, hp⟩
    exact ⟨n, hn, hr.symm, hp.symm⟩

theorem isWithin_iff (p b : Path) :
    p.isWithin b = true ↔ p.root = b.root ∧ b.parts <+: p.parts := by
  simp only [isWithin, Bool.or_eq_true, decide_eq_true_eq, List.contains_iff_mem, mem_ancestors]
  constructor
  · rintro (rfl | ⟨hr, n, _, hp⟩)
    · exact ⟨rfl, List.prefix_refl _⟩
    · exact ⟨hr.symm, hp ▸ List.take_prefix n _⟩
  · rintro ⟨hr, hp⟩
    by_cases hl : b.parts.length < p.parts.length
    · exact Or.inr ⟨hr.symm, _, hl, List.prefix_iff_eq_take.mp hp⟩
    · have he : b.parts = p.parts := hp.eq_of_length (Nat.le_antisymm hp.length_le (by omega))
      cases p; cases b; simp_all

end Path
end DeletionGuard
