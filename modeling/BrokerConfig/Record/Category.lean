namespace BrokerConfig.Category

def virtualHost : String := "VirtualHost"

def exchange : String := "Exchange"

def queue : String := "Queue"

def binding : String := "Binding"

def package : String := "org.apache.qpid.server.model."

def afterLastDot : List Char → List Char
  | [] => []
  | c :: rest =>
    if '.' ∈ rest then afterLastDot rest else if c = '.' then rest else c :: rest

def short (tag : String) : String := String.ofList (afterLastDot tag.toList)

def qualified (short : String) : String := package ++ short

theorem dot_not_mem_afterLastDot (chars : List Char) : '.' ∉ afterLastDot chars := by
  induction chars with
  | nil => simp [afterLastDot]
  | cons c rest ih =>
    unfold afterLastDot
    split
    · exact ih
    · split
      · assumption
      · rename_i hr hc
        simp only [List.mem_cons, not_or]
        exact ⟨fun e => hc e.symm, hr⟩

theorem afterLastDot_of_not_mem {chars : List Char} (h : '.' ∉ chars) :
    afterLastDot chars = chars := by
  cases chars with
  | nil => rfl
  | cons c rest =>
    simp only [List.mem_cons, not_or] at h
    have hc : c ≠ '.' := fun e => h.1 e.symm
    simp [afterLastDot, h.2, hc]

theorem short_short (tag : String) : short (short tag) = short tag := by
  simp [short, afterLastDot_of_not_mem (dot_not_mem_afterLastDot _)]

end BrokerConfig.Category
