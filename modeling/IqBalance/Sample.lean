import IqBalance.Scalar

/-!
Complex baseband samples: the in-phase part `re`, the quadrature part `im`,
and the operations the chain uses, each with its order of evaluation.
-/

namespace IqBalance

/-- One complex sample. -/
@[ext]
structure Sample (α : Type) where
  re : α
  im : α
  deriving DecidableEq

/-- A stretch of consecutive samples. -/
abbrev Block (α : Type) := Array (Sample α)

namespace Sample

variable {α : Type} [Scalar α]

instance : Zero (Sample α) := ⟨⟨0, 0⟩⟩

instance : Add (Sample α) := ⟨fun x y => ⟨x.re + y.re, x.im + y.im⟩⟩

instance : Sub (Sample α) := ⟨fun x y => ⟨x.re - y.re, x.im - y.im⟩⟩

instance : Mul (Sample α) :=
  ⟨fun x y => ⟨x.re * y.re - x.im * y.im, x.re * y.im + x.im * y.re⟩⟩

/-- Both parts times a real factor. -/
def scale (x : Sample α) (w : α) : Sample α := ⟨x.re * w, x.im * w⟩

/-- The squared magnitude. -/
def normSq (x : Sample α) : α := x.re * x.re + x.im * x.im

/-- Both parts are finite. -/
def isFinite (x : Sample α) : Bool := Scalar.isFinite x.re && Scalar.isFinite x.im

@[simp] theorem zero_re : (0 : Sample α).re = 0 := rfl

@[simp] theorem zero_im : (0 : Sample α).im = 0 := rfl

@[simp] theorem add_re (x y : Sample α) : (x + y).re = x.re + y.re := rfl

@[simp] theorem add_im (x y : Sample α) : (x + y).im = x.im + y.im := rfl

@[simp] theorem sub_re (x y : Sample α) : (x - y).re = x.re - y.re := rfl

@[simp] theorem sub_im (x y : Sample α) : (x - y).im = x.im - y.im := rfl

@[simp] theorem mul_re (x y : Sample α) : (x * y).re = x.re * y.re - x.im * y.im := rfl

@[simp] theorem mul_im (x y : Sample α) : (x * y).im = x.re * y.im + x.im * y.re := rfl

@[simp] theorem scale_re (x : Sample α) (w : α) : (x.scale w).re = x.re * w := rfl

@[simp] theorem scale_im (x : Sample α) (w : α) : (x.scale w).im = x.im * w := rfl

end Sample

end IqBalance
