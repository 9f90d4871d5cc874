import IdCompiler.Canon.Rename

/-!
# Functions of a program

What the checks know of the names of a function, and which renamings of its
variables are such that the result is a function of the program again.
-/

namespace IdCompiler.Canon

/-- `bnames` -/
def builtins : List String :=
  ["print", "input", "read_all", "len", "push", "pop", "to_int", "character_code_at", "chr", "put",
    "flush", "getkey", "sleep_ms", "ticks", "alloc", "store_size", "peek8", "peek16", "peek32", "peek64",
    "poke8", "poke16", "poke32", "poke64", "udiv", "umod", "ult", "ushr", "rotl", "umul_hi",
    "uword_of_int", "add_checked", "sub_checked", "mul_checked", "str_of_mem", "mem_of_str", "eprint",
    "peek8s", "peek16s", "peek32s", "peek8u", "peek16u", "peek32u", "bits_of_float", "float_of_bits",
    "bits32_of_float", "float_of_bits32", "fail", "bind", "str_sub", "character_code_at", "bytes_new",
    "bytes_sub", "bytes_append", "string_of_bytes", "bytes_of_string", "bytes_of_memory",
    "memory_of_bytes"]

/-- The functions, where their nodes are, and the names of structs and of exports. -/
structure Program where
  fnames : List String
  fnNodeOf : String → Int
  sdname : List String
  enames : List String

mutual
def Stmt.locals : Stmt → List String
  | .decl _ name exported _ => if exported then [] else [name]
  | .cond _ thenl elsel _ => localsOf thenl ++ localsOf elsel
  | .loop _ body => localsOf body
  | .assign _ _ | .iassign _ _ _ | .exprstmt _ | .chain | .blank | .brk | .ret _ | .other _ _ => []
def localsOf : List Stmt → List String
  | [] => []
  | stmt :: rest => stmt.locals ++ localsOf rest
end

/-- The parameters and the locals of a function. -/
def Func.locals (f : Func) : List String := f.params.map Param.name ++ localsOf f.body

def Program.ctx (P : Program) (cloose : Bool) (f : Func) : Ctx := ⟨P.fnNodeOf, cloose, f.name⟩

/-- What the checks see to. -/
structure Accepted (P : Program) (f : Func) : Prop where
  /-- A function with a node is a function. -/
  node : ∀ n, 0 ≤ P.fnNodeOf n → n ∈ P.fnames
  self : 0 ≤ P.fnNodeOf f.name
  /-- `is_reserved_name` -/
  not_reserved : f.name ≠ "ushr"
  /-- E0308 -/
  local_fn : ∀ n ∈ f.locals, n ∉ P.fnames
  export_fn : ∀ n ∈ P.enames, n ∉ P.fnames
  /-- E0309 -/
  local_export : ∀ n ∈ f.locals, n ∉ P.enames
  /-- E0301 and E0305 -/
  read : ∀ cloose n, .read n ∈ f.order (P.ctx cloose f) → n ∈ f.locals ∨ n ∈ P.enames
  /-- E0304 and E0306 -/
  call : ∀ cloose n, .call n ∈ f.order (P.ctx cloose f) →
    n ∈ P.fnames ∨ n ∈ builtins ∨ n ∈ P.sdname ∨ n ∈ f.locals ∨ n ∈ P.enames
  /-- Names are identifiers. -/
  ident : ∀ n, n ∈ f.locals ∨ n = f.name → isIdent n
  ident_call : ∀ cloose n, .call n ∈ f.order (P.ctx cloose f) → isIdent n

/-- A renaming of the parameters and locals to names that are not functions, builtins or exports,
and of the function itself to a name that is not taken, with where functions are afterwards. -/
structure Renames (P : Program) (f : Func) (ρ : String → String) (fnNodeOf' : String → Int) : Prop where
  fixed : ∀ n, n ∉ f.locals → n ≠ f.name → ρ n = n
  ident : ∀ n, n ∈ f.locals ∨ n = f.name → isIdent (ρ n)
  inj : ∀ m ∈ f.locals, ∀ n ∈ f.locals, ρ m = ρ n → m = n
  image : ∀ n ∈ f.locals, ρ n ∉ P.fnames ∧ ρ n ∉ builtins ∧ ρ n ∉ P.enames
  self : ρ f.name = f.name ∨
    ρ f.name ∉ P.fnames ∧ ρ f.name ∉ builtins ∧ ρ f.name ∉ P.enames ∧ ρ f.name ∉ P.sdname
  self_ne : ∀ n ∈ f.locals, ρ n ≠ ρ f.name
  others : ∀ n, n ≠ f.name → n ≠ ρ f.name → (0 ≤ fnNodeOf' n ↔ 0 ≤ P.fnNodeOf n)
  found : 0 ≤ fnNodeOf' (ρ f.name)

/-- What a callee is renamed to. The name of a struct builds one and that of a builtin calls it,
whatever variables there are. -/
def Program.callee (P : Program) (f : Func) (ρ : String → String) (n : String) : String :=
  if n ≠ f.name ∧ (n ∈ builtins ∨ n ∈ P.sdname) then n else ρ n

/-- A call that is written alike under every renaming, after the names `met`. -/
structure Harmless (P : Program) (f : Func) (met : List String) (n : String) : Prop where
  /-- A variable that is called was met before. -/
  var : n ∈ f.locals → n ∉ builtins → n ∉ P.sdname → n ∈ met
  /-- No variable with the name of the builtin or of the struct was met before, unless it is
  spelled as its position is. -/
  named : n ∈ builtins ∨ n ∈ P.sdname → n ∈ f.locals → ∀ i : Nat, met[i]? = some n → n = "v" ++ toString i
  /-- Neither was a variable that could be renamed to the name of the struct. -/
  struct : n ∈ P.sdname → n ∉ P.fnames → n ∉ builtins → n ∉ P.enames →
    ∀ (i : Nat) x, met[i]? = some x → x ∈ f.locals → n = "v" ++ toString i

end IdCompiler.Canon
