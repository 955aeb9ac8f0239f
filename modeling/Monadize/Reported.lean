/-! Computations that report as they go and may fail. What was reported before a failure stays. -/

namespace Monadize

structure Reported (ρ ε α : Type) where
  reports : List ρ
  result : Except ε α

namespace Reported

variable {ρ ε α β : Type}

def ok (value : α) : Reported ρ ε α := ⟨[], .ok value⟩

def fail (error : ε) : Reported ρ ε α := ⟨[], .error error⟩

/-- Make reports. -/
def tell (reports : List ρ) : Reported ρ ε Unit := ⟨reports, .ok ()⟩

def ofExcept (result : Except ε α) : Reported ρ ε α := ⟨[], result⟩

protected def bind (first : Reported ρ ε α) (next : α → Reported ρ ε β) : Reported ρ ε β :=
  match first.result with
  | .error e => ⟨first.reports, .error e⟩
  | .ok value =>
      let second := next value
      ⟨first.reports ++ second.reports, second.result⟩

instance : Monad (Reported ρ ε) where
  pure := ok
  bind := Reported.bind

@[simp] theorem result_pure (value : α) : (pure value : Reported ρ ε α).result = .ok value := rfl

@[simp] theorem reports_pure (value : α) : (pure value : Reported ρ ε α).reports = [] := rfl

@[simp] theorem result_tell (reports : List ρ)
    : (tell reports : Reported ρ ε Unit).result = .ok () :=
  rfl

@[simp] theorem result_ofExcept (result : Except ε α)
    : (ofExcept result : Reported ρ ε α).result = result :=
  rfl

/-- The results of a sequence of computations do not depend on the reports. -/
@[simp] theorem result_bind (first : Reported ρ ε α) (next : α → Reported ρ ε β)
    : (first >>= next).result = first.result.bind fun value => (next value).result := by
  show (Reported.bind first next).result = _
  cases h : first.result <;> simp [Reported.bind, h, Except.bind]

theorem result_bind_ok {first : Reported ρ ε α} {next : α → Reported ρ ε β} {value : α}
    (h : first.result = .ok value)
    : (first >>= next).result = (next value).result := by
  rw [result_bind, h]
  rfl

theorem result_bind_error {first : Reported ρ ε α} {next : α → Reported ρ ε β} {error : ε}
    (h : first.result = .error error)
    : (first >>= next).result = .error error := by
  rw [result_bind, h]
  rfl

@[simp] theorem reports_bind_ok {first : Reported ρ ε α} {next : α → Reported ρ ε β} {value : α}
    (h : first.result = .ok value)
    : (first >>= next).reports = first.reports ++ (next value).reports := by
  show (Reported.bind first next).reports = _
  simp [Reported.bind, h]

@[simp] theorem reports_bind_error {first : Reported ρ ε α} {next : α → Reported ρ ε β} {error : ε}
    (h : first.result = .error error)
    : (first >>= next).reports = first.reports := by
  show (Reported.bind first next).reports = _
  simp [Reported.bind, h]

end Reported

end Monadize
