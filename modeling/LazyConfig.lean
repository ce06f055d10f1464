import LazyConfig.Main
import LazyConfig.Proofs.Parsing.RoundTrip
import LazyConfig.Proofs.Sharing.CallByName
import LazyConfig.Proofs.Patterns.Defaults
import LazyConfig.Proofs.Grammar.Documented
import LazyConfig.Proofs.Grammar.Formatting
import LazyConfig.Proofs.Order.Observations
import LazyConfig.Proofs.Grammar.Lexicons
import LazyConfig.Proofs.Scope
import LazyConfig.Proofs.Printing.Results
import LazyConfig.Proofs.Safety.Programs
import LazyConfig.Proofs.Tracing.Runs
import LazyConfig.Proofs.Grammar.Cuts
import LazyConfig.Proofs.Template.Stripping
import LazyConfig.Proofs.Scopes.Meaning
import LazyConfig.Proofs.Parentheses.Necessity
import LazyConfig.Proofs.Interpolation.Strings
import LazyConfig.Proofs.Lowering.Sugar
import LazyConfig.Proofs.Parsing.Furthest
import LazyConfig.Proofs.Tokens.Display
import LazyConfig.Proofs.Names
import LazyConfig.Proofs.Outlines
