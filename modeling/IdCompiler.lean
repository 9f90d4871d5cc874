import IdCompiler.Num.High
import IdCompiler.Num.Checked
import IdCompiler.Core.Positional
import IdCompiler.Num.Literal
import IdCompiler.Num.Judged
import IdCompiler.Arena.Orderly
import IdCompiler.Arena.Wide
import IdCompiler.Arena.Span
import IdCompiler.Names.Closure
import IdCompiler.Names.Lexical
import IdCompiler.Core.Buckets
import IdCompiler.Symbols.Tables
import IdCompiler.Symbols.Lookup
import IdCompiler.Lexer.Run
import IdCompiler.Tokens.Stored
import IdCompiler.Literal.Agree
import IdCompiler.Hosted.Values
import IdCompiler.Channel.Asleep
import IdCompiler.Digest.Component
import IdCompiler.Fast.Sums
import IdCompiler.Escape.Query
import IdCompiler.Hosted.Bounds
import IdCompiler.Ir.Dce
import IdCompiler.Ir.Program
import IdCompiler.Core.Texts
import IdCompiler.Canon.Exact
import IdCompiler.Core.Nesting
import IdCompiler.Types.Spell
import IdCompiler.Types.Parts
import IdCompiler.Desc.Exact
